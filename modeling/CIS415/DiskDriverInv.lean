import CIS415.DiskDriverOwn

/-!
# What the threads know

While a voucher is out for a request, its fields are those of that request; the logs say how far each
request has come, and where a thread stands says what it may rely on.
-/

namespace CIS415.DiskDriver

open Ownership System

variable {T D : Type}

namespace RedeemPhase

def locked : RedeemPhase D → Bool
  | lock => false
  | wait => false
  | ret => false
  | _ => true

def passed : RedeemPhase D → Bool
  | lock => false
  | test => false
  | release => false
  | wait => false
  | _ => true

end RedeemPhase

theorem request_of_returned {ph : RedeemPhase D} {r : Request} {out : Option (Option D)}
    (h : ph.returned = false) : (AppPC.redeem ph r out).request = some r := by
  simp [AppPC.request, h]

/-- What a step of `redeem_voucher` does: it only moves on, or it takes or leaves the mutex, gives the
sector descriptor or the voucher back, resets the voucher, or returns. -/
inductive RedeemMove [DecidableEq T] (s : State T D) (t : T) (r : Request)
    (out : Option (Option D)) : RedeemPhase D → State T D → Prop
  | next {ph : RedeemPhase D} (ph' : RedeemPhase D) (out' : Option (Option D))
      (hlocked : ph'.locked = ph.locked) (hreturned : ph.returned = false)
      (hreturned' : ph'.returned = false)
      (hpassed : ph'.passed = true → ph.passed = true ∨ (s.voucher r.v).completed = 1) :
      RedeemMove s t r out ph (s.setApp t (.redeem ph' r out'))
  | lock (hfree : (s.voucher r.v).mute = none) :
      RedeemMove s t r out .lock
        ((s.setVoucher r.v { s.voucher r.v with mute := some (.app t) }).setApp t
          (.redeem .test r out))
  | release :
      RedeemMove s t r out .release
        ((s.setVoucher r.v { s.voucher r.v with mute := none }).setApp t (.redeem .wait r out))
  | putSd (sd : Option D) :
      RedeemMove s t r out (.putSd sd)
        ({ s with fsds := s.fsds ++ [sd] }.setApp t (.redeem .reset r out))
  | reset :
      RedeemMove s t r out .reset
        ((s.setVoucher r.v { s.voucher r.v with completed := 0 }).setApp t
          (.redeem .giveBack r out))
  | giveBack :
      RedeemMove s t r out .giveBack
        ({ s with vouchBB := s.vouchBB ++ [r.v] }.setApp t (.redeem .unlock r out))
  | unlock :
      RedeemMove s t r out .unlock
        ((s.setVoucher r.v { s.voucher r.v with mute := none }).setApp t (.redeem .ret r out))
  | ret :
      RedeemMove s t r out .ret
        ({ s with redeemed := s.redeemed ++ [(r, (s.voucher r.v).status, out)] }.setApp t .idle)

theorem redeemStep_move [DecidableEq T] {s s' : State T D} {t : T} {r : Request}
    {out : Option (Option D)} {ph : RedeemPhase D} (hs : redeemStep s t r out ph = some s') :
    RedeemMove s t r out ph s' := by
  cases ph with
  | lock =>
    rw [redeemStep] at hs
    split_ifs at hs with hfree
    obtain rfl := Option.some.inj hs
    exact .lock hfree
  | test =>
    rw [redeemStep] at hs
    split_ifs at hs with hc
    · obtain rfl := Option.some.inj hs
      exact .next .release out rfl rfl rfl (fun h => absurd h Bool.false_ne_true)
    · obtain rfl := Option.some.inj hs
      exact .next .checkStatus out rfl rfl rfl fun _ => .inr (not_not.mp hc)
  | release =>
    obtain rfl := Option.some.inj hs
    exact .release
  | wait =>
    obtain rfl := Option.some.inj hs
    exact .next .lock out rfl rfl rfl (fun h => absurd h Bool.false_ne_true)
  | checkStatus =>
    rw [redeemStep] at hs
    split_ifs at hs
    · obtain rfl := Option.some.inj hs
      exact .next .checkWrite out rfl rfl rfl .inl
    · obtain rfl := Option.some.inj hs
      exact .next .checkRead out rfl rfl rfl .inl
  | checkWrite =>
    rw [redeemStep] at hs
    split_ifs at hs
    · obtain rfl := Option.some.inj hs
      exact .next .storeSd out rfl rfl rfl .inl
    · obtain rfl := Option.some.inj hs
      exact .next .checkRead out rfl rfl rfl .inl
  | storeSd =>
    obtain rfl := Option.some.inj hs
    exact .next .checkRead _ rfl rfl rfl .inl
  | checkRead =>
    rw [redeemStep] at hs
    split_ifs at hs
    · obtain rfl := Option.some.inj hs
      exact .next .readSd out rfl rfl rfl .inl
    · obtain rfl := Option.some.inj hs
      exact .next .reset out rfl rfl rfl .inl
  | readSd =>
    obtain rfl := Option.some.inj hs
    exact .next (.putSd _) out rfl rfl rfl .inl
  | putSd sd =>
    obtain rfl := Option.some.inj hs
    exact .putSd sd
  | reset =>
    obtain rfl := Option.some.inj hs
    exact .reset
  | giveBack =>
    rw [redeemStep] at hs
    split_ifs at hs
    obtain rfl := Option.some.inj hs
    exact .giveBack
  | unlock =>
    obtain rfl := Option.some.inj hs
    exact .unlock
  | ret =>
    obtain rfl := Option.some.inj hs
    exact .ret

/-- The worker has taken the voucher but not yet done the device operation. -/
def WorkPhase.fetched : WorkPhase D → Bool
  | .lock => true
  | .readSd => true
  | .device _ => true
  | _ => false

/-- The worker has done the device operation but not yet set `completed`. -/
def WorkPhase.logged : WorkPhase D → Bool
  | .store _ => true
  | .complete => true
  | _ => false

def WorkerPC.fetched : WorkerPC D → List VoucherPtr
  | .idle => []
  | .busy ph v => if ph.fetched then [v] else []

def WorkerPC.logged : WorkerPC D → ℕ
  | .idle => 0
  | .busy ph _ => if ph.logged then 1 else 0

/-- The device log is what was accepted, in order, up to the requests that worker and queue still
hold. `done k` requests of kind `k` have had their `completed` flag set. -/
structure Logged (accepted : Kind → List (VoucherPtr × Option D))
    (device : Kind → List (VoucherPtr × Option D × ℤ)) (queue : Kind → List VoucherPtr)
    (worker : Kind → WorkerPC D) (done : Kind → ℕ) : Prop where
  log_eq : ∀ k, (device k).map (fun x => (x.1, x.2.1)) = (accepted k).take (device k).length
  pending_eq : ∀ k, ((accepted k).drop (device k).length).map Prod.fst =
    (worker k).fetched ++ queue k
  done_eq : ∀ k, (device k).length = done k + (worker k).logged

/-- The fields of a voucher that is out are those of its request. -/
structure Recorded (voucher : VoucherPtr → Voucher T D)
    (accepted : Kind → List (VoucherPtr × Option D))
    (device : Kind → List (VoucherPtr × Option D × ℤ)) (place : VoucherPtr → Place T)
    (done : Kind → ℕ) : Prop where
  fields : ∀ v r o, place v = .request r o →
    (accepted r.kind)[r.index]? = some (v, (voucher v).sd) ∧ (voucher v).read_write = r.kind.flag
  out : ∀ k n x, (accepted k)[n]? = some x → done k ≤ n → ∃ o, place x.1 = .request ⟨x.1, k, n⟩ o
  completed : ∀ v r o, place v = .request r o → (voucher v).completed ≠ 0 → r.index < done r.kind
  status : ∀ v r o, place v = .request r o → r.index < done r.kind →
    (device r.kind)[r.index]? = some (v, (voucher v).sd, (voucher v).status)

/-- What an application thread knows about its voucher. -/
def AppOk (voucher : VoucherPtr → Voucher T D) (done : Kind → ℕ) (t : T) : AppPC D → Prop
  | .idle => True
  | .take _ _ _ => True
  | .submit .setReadWrite _ _ _ _ => True
  | .submit .setCompleted k _ _ v => (voucher v).read_write = k.flag
  | .submit .setSd k _ _ v => (voucher v).read_write = k.flag ∧ (voucher v).completed = 0
  | .submit .enqueue k _ sd v =>
    (voucher v).read_write = k.flag ∧ (voucher v).completed = 0 ∧ (voucher v).sd = sd
  | .giveBack _ => False
  | .redeem ph r _ =>
    (ph.locked = true → (voucher r.v).mute = some (.app t)) ∧
      (ph.passed = true → r.index < done r.kind)

/-- What worker `k` knows about its voucher `v`, which is out for request `n` of its kind. -/
def WorkOk (voucher : VoucherPtr → Voucher T D) (done : ℕ) (k : Kind)
    (device : List (VoucherPtr × Option D × ℤ)) (n : ℕ) (v : VoucherPtr) : WorkPhase D → Prop
  | .lock => n = done
  | .readSd => n = done ∧ (voucher v).mute = some (.worker k)
  | .device sd => n = done ∧ (voucher v).mute = some (.worker k) ∧ (voucher v).sd = sd
  | .store st =>
    n = done ∧ (voucher v).mute = some (.worker k) ∧ device[n]? = some (v, (voucher v).sd, st)
  | .complete =>
    n = done ∧ (voucher v).mute = some (.worker k) ∧
      device[n]? = some (v, (voucher v).sd, (voucher v).status)
  | .signal => n < done ∧ (voucher v).mute = some (.worker k)
  | .unlock => n < done ∧ (voucher v).mute = some (.worker k)

def WorkerOk (voucher : VoucherPtr → Voucher T D) (device : Kind → List (VoucherPtr × Option D × ℤ))
    (place : VoucherPtr → Place T) (done : Kind → ℕ) (k : Kind) : WorkerPC D → Prop
  | .idle => True
  | .busy ph v => ∃ n o, place v = .request ⟨v, k, n⟩ o ∧
      WorkOk voucher (done k) k (device k) n v ph

structure Inv (s : State T D) (place : VoucherPtr → Place T) (done : Kind → ℕ) : Prop where
  owned : Placed (Holds s) place
  pool_nodup : s.vouchBB.Nodup
  issued_nodup : s.issued.Nodup
  logged : Logged s.accepted s.device s.queue s.worker done
  recorded : Recorded s.voucher s.accepted s.device place done
  app_ok : ∀ t, AppOk s.voucher done t (s.app t)
  work_ok : ∀ k, WorkerOk s.voucher s.device place done k (s.worker k)

theorem inv_init : Inv (initDiskDriver : State T D) (fun _ => .pool) (fun _ => 0) where
  owned := placed_init
  pool_nodup := List.nodup_finRange _
  issued_nodup := List.nodup_nil
  logged := by
    constructor <;> simp [initDiskDriver, WorkerPC.fetched, WorkerPC.logged]
  recorded := by
    constructor <;> simp [initDiskDriver]
  app_ok _ := trivial
  work_ok _ := trivial

variable {voucher : VoucherPtr → Voucher T D} {accepted : Kind → List (VoucherPtr × Option D)}
  {device : Kind → List (VoucherPtr × Option D × ℤ)} {queue : Kind → List VoucherPtr}
  {worker : Kind → WorkerPC D} {place : VoucherPtr → Place T} {done done' : Kind → ℕ}
  {v : VoucherPtr} {x : Voucher T D} {k : Kind} {t : T} {pc : AppPC D} {wpc : WorkerPC D}
  {r : Request} {o : Option T} {sd : Option D} {st : ℤ}

theorem Logged.length_le (h : Logged accepted device queue worker done) (k : Kind) :
    (device k).length ≤ (accepted k).length := by
  have hlen := congrArg List.length (h.log_eq k)
  rw [List.length_map, List.length_take] at hlen
  omega

/-- The device operated on what was submitted. -/
theorem Logged.accepted_of_device (h : Logged accepted device queue worker done) {n : ℕ}
    (hdev : (device k)[n]? = some (v, sd, st)) : (accepted k)[n]? = some (v, sd) := by
  obtain ⟨hlt, -⟩ := List.getElem?_eq_some_iff.mp hdev
  have hlog := congrArg (fun l => l[n]?) (h.log_eq k)
  simp only [List.getElem?_map, hdev, Option.map_some, List.getElem?_take, if_pos hlt] at hlog
  exact hlog.symm

theorem Logged.done_le (h : Logged accepted device queue worker done) (k : Kind) :
    done k ≤ (accepted k).length :=
  le_trans (by have := h.done_eq k; omega) (h.length_le k)

theorem Logged.enqueue (h : Logged accepted device queue worker done) :
    Logged (Function.update accepted k (accepted k ++ [(v, sd)])) device
      (Function.update queue k (queue k ++ [v])) worker done := by
  have hle := h.length_le k
  constructor
  · intro k'
    by_cases hk : k' = k
    · subst hk
      rw [Function.update_self, List.take_append_of_le_length hle]
      exact h.log_eq k'
    · rw [Function.update_of_ne hk]
      exact h.log_eq k'
  · intro k'
    by_cases hk : k' = k
    · subst hk
      rw [Function.update_self, Function.update_self, List.drop_append_of_le_length hle,
        List.map_append, h.pending_eq, List.append_assoc]
      rfl
    · rw [Function.update_of_ne hk, Function.update_of_ne hk]
      exact h.pending_eq k'
  · exact h.done_eq

theorem Logged.setWorker (h : Logged accepted device queue worker done)
    (hf : wpc.fetched = (worker k).fetched) (hl : wpc.logged = (worker k).logged) :
    Logged accepted device queue (Function.update worker k wpc) done := by
  constructor
  · exact h.log_eq
  · intro k'
    rw [view_update WorkerPC.fetched hf]
    exact h.pending_eq k'
  · intro k'
    rw [view_update WorkerPC.logged hl]
    exact h.done_eq k'

theorem Logged.fetch (h : Logged accepted device queue worker done) (hw : worker k = .idle)
    {rest : List VoucherPtr} (hq : queue k = v :: rest) :
    Logged accepted device (Function.update queue k rest)
      (Function.update worker k (.busy .lock v)) done := by
  constructor
  · exact h.log_eq
  · intro k'
    by_cases hk : k' = k
    · subst hk
      rw [Function.update_self, Function.update_self, h.pending_eq, hw, hq]
      rfl
    · rw [Function.update_of_ne hk, Function.update_of_ne hk]
      exact h.pending_eq k'
  · intro k'
    rw [view_update WorkerPC.logged (by rw [hw]; rfl)]
    exact h.done_eq k'

theorem Logged.append (h : Logged accepted device queue worker done)
    (hw : worker k = .busy (.device sd) v)
    (hacc : (accepted k)[(device k).length]? = some (v, sd)) :
    Logged accepted (Function.update device k (device k ++ [(v, sd, st)])) queue
      (Function.update worker k (.busy (.store st) v)) done := by
  have hpend := h.pending_eq k
  have hdone := h.done_eq k
  rw [hw] at hpend hdone
  obtain ⟨hlt, hget⟩ := List.getElem?_eq_some_iff.mp hacc
  rw [List.drop_eq_getElem_cons hlt, hget] at hpend
  constructor
  · intro k'
    by_cases hk : k' = k
    · subst hk
      rw [Function.update_self, List.map_append, h.log_eq, List.length_append, List.length_singleton,
        List.take_add_one, hacc]
      rfl
    · rw [Function.update_of_ne hk]
      exact h.log_eq k'
  · intro k'
    by_cases hk : k' = k
    · subst hk
      rw [Function.update_self, Function.update_self, List.length_append, List.length_singleton]
      exact (List.cons.inj hpend).2
    · rw [Function.update_of_ne hk, Function.update_of_ne hk]
      exact h.pending_eq k'
  · intro k'
    by_cases hk : k' = k
    · subst hk
      rw [Function.update_self, Function.update_self, List.length_append, hdone]
      rfl
    · rw [Function.update_of_ne hk, Function.update_of_ne hk]
      exact h.done_eq k'

theorem Logged.complete (h : Logged accepted device queue worker done)
    (hw : worker k = .busy .complete v) :
    Logged accepted device queue (Function.update worker k (.busy .signal v))
      (Function.update done k (done k + 1)) := by
  constructor
  · exact h.log_eq
  · intro k'
    rw [view_update WorkerPC.fetched (by rw [hw]; rfl)]
    exact h.pending_eq k'
  · intro k'
    by_cases hk : k' = k
    · subst hk
      rw [Function.update_self, Function.update_self, h.done_eq, hw]
      rfl
    · rw [Function.update_of_ne hk, Function.update_of_ne hk]
      exact h.done_eq k'

/-- Two requests that were accepted and not completed have different vouchers. -/
theorem Recorded.index_unique (h : Recorded voucher accepted device place done) {r r' : Request}
    {v v' : VoucherPtr} {o o' : Option T} (hp : place v = .request r o)
    (hp' : place v' = .request r' o') (hk : r'.kind = r.kind) (hn : r'.index = r.index) :
    v' = v := by
  have hv := (h.fields v r o hp).1
  have hv' := (h.fields v' r' o' hp').1
  rw [hk, hn, hv, Option.some.injEq, Prod.mk.injEq] at hv'
  exact hv'.1.symm

theorem Recorded.setVoucher (h : Recorded voucher accepted device place done)
    (hx : ∀ r o, place v = .request r o → x.sd = (voucher v).sd ∧
      x.read_write = (voucher v).read_write ∧ (x.completed ≠ 0 → (voucher v).completed ≠ 0) ∧
      (r.index < done r.kind → x.status = (voucher v).status)) :
    Recorded (Function.update voucher v x) accepted device place done := by
  constructor
  · intro w r o hp
    by_cases hw : w = v
    · subst hw
      rw [Function.update_self, (hx r o hp).1, (hx r o hp).2.1]
      exact h.fields w r o hp
    · rw [Function.update_of_ne hw]
      exact h.fields w r o hp
  · exact h.out
  · intro w r o hp
    by_cases hw : w = v
    · subst hw
      rw [Function.update_self]
      intro hc
      exact h.completed w r o hp ((hx r o hp).2.2.1 hc)
    · rw [Function.update_of_ne hw]
      exact h.completed w r o hp
  · intro w r o hp hlt
    by_cases hw : w = v
    · subst hw
      rw [Function.update_self, (hx r o hp).1, (hx r o hp).2.2.2 hlt]
      exact h.status w r o hp hlt
    · rw [Function.update_of_ne hw]
      exact h.status w r o hp hlt

/-- A voucher that is not out, or whose request is completed, may go anywhere else. -/
theorem Recorded.move (h : Recorded voucher accepted device place done) {p : Place T}
    (hp : ∀ r o, p ≠ .request r o)
    (hv : ∀ r o, place v = .request r o → r.index < done r.kind) :
    Recorded voucher accepted device (Function.update place v p) done := by
  have hold : ∀ w r o, Function.update place v p w = .request r o → place w = .request r o := by
    intro w r o hw
    by_cases hwv : w = v
    · subst hwv
      rw [Function.update_self] at hw
      exact absurd hw (hp r o)
    · rwa [Function.update_of_ne hwv] at hw
  constructor
  · intro w r o hw
    exact h.fields w r o (hold w r o hw)
  · intro k n y hy hle
    obtain ⟨o, ho⟩ := h.out k n y hy hle
    have hne : y.1 ≠ v := by
      intro heq
      have hlt := hv _ o (heq ▸ ho)
      exact absurd hlt (not_lt.mpr hle)
    exact ⟨o, by rw [Function.update_of_ne hne, ho]⟩
  · intro w r o hw
    exact h.completed w r o (hold w r o hw)
  · intro w r o hw
    exact h.status w r o (hold w r o hw)

theorem Recorded.redeem (h : Recorded voucher accepted device place done) {o' : Option T}
    (hr : place r.v = .request r o) :
    Recorded voucher accepted device (Function.update place r.v (.request r o')) done := by
  have hold : ∀ w q p, Function.update place r.v (.request r o') w = .request q p →
      ∃ p', place w = .request q p' := by
    intro w q p hw
    by_cases hwv : w = r.v
    · subst hwv
      rw [Function.update_self, Place.request.injEq] at hw
      exact ⟨o, hw.1 ▸ hr⟩
    · rw [Function.update_of_ne hwv] at hw
      exact ⟨p, hw⟩
  constructor
  · intro w q p hw
    obtain ⟨p', hp'⟩ := hold w q p hw
    exact h.fields w q p' hp'
  · intro k n y hy hle
    obtain ⟨p, hp⟩ := h.out k n y hy hle
    by_cases hyv : y.1 = r.v
    · rw [hyv, hr, Place.request.injEq] at hp
      rw [hyv, Function.update_self, ← hp.1]
      exact ⟨o', rfl⟩
    · exact ⟨p, by rw [Function.update_of_ne hyv, hp]⟩
  · intro w q p hw
    obtain ⟨p', hp'⟩ := hold w q p hw
    exact h.completed w q p' hp'
  · intro w q p hw
    obtain ⟨p', hp'⟩ := hold w q p hw
    exact h.status w q p' hp'

theorem Recorded.enqueue (h : Recorded voucher accepted device place done)
    (hv : ∀ r o, place v ≠ .request r o) (hrw : (voucher v).read_write = k.flag)
    (hc : (voucher v).completed = 0) (hsd : (voucher v).sd = sd)
    (hdone : done k ≤ (accepted k).length) :
    Recorded voucher (Function.update accepted k (accepted k ++ [(v, sd)])) device
      (Function.update place v (.request ⟨v, k, (accepted k).length⟩ none)) done := by
  have hkeep : ∀ (k' : Kind) (n : ℕ) y, (accepted k')[n]? = some y →
      (Function.update accepted k (accepted k ++ [(v, sd)]) k')[n]? = some y := by
    intro k' n y hy
    by_cases hk : k' = k
    · subst hk
      obtain ⟨hlt, -⟩ := List.getElem?_eq_some_iff.mp hy
      rw [Function.update_self, List.getElem?_append_left hlt, hy]
    · rw [Function.update_of_ne hk, hy]
  constructor
  · intro w r o hw
    by_cases hwv : w = v
    · subst hwv
      rw [Function.update_self, Place.request.injEq] at hw
      obtain ⟨rfl, -⟩ := hw
      simp [hsd, hrw]
    · rw [Function.update_of_ne hwv] at hw
      exact (h.fields w r o hw).imp_left (hkeep _ _ _)
  · intro k' n y hy hle
    by_cases hnew : k' = k ∧ n = (accepted k).length
    · obtain ⟨rfl, rfl⟩ := hnew
      rw [Function.update_self, List.getElem?_concat_length, Option.some.injEq] at hy
      subst hy
      exact ⟨none, Function.update_self ..⟩
    · have hy' : (accepted k')[n]? = some y := by
        by_cases hk : k' = k
        · subst hk
          have hn : n ≠ (accepted k').length := fun hn => hnew ⟨rfl, hn⟩
          obtain ⟨hlt, -⟩ := List.getElem?_eq_some_iff.mp hy
          rw [Function.update_self, List.length_append, List.length_singleton] at hlt
          rwa [Function.update_self, List.getElem?_append_left (by omega)] at hy
        · rwa [Function.update_of_ne hk] at hy
      obtain ⟨o, ho⟩ := h.out k' n y hy' hle
      have hne : y.1 ≠ v := by
        intro heq
        exact hv _ o (heq ▸ ho)
      exact ⟨o, by rw [Function.update_of_ne hne, ho]⟩
  · intro w r o hw hcw
    by_cases hwv : w = v
    · subst hwv
      exact absurd hc hcw
    · rw [Function.update_of_ne hwv] at hw
      exact h.completed w r o hw hcw
  · intro w r o hw hlt
    by_cases hwv : w = v
    · subst hwv
      rw [Function.update_self, Place.request.injEq] at hw
      obtain ⟨rfl, -⟩ := hw
      exact absurd hdone (not_le.mpr hlt)
    · rw [Function.update_of_ne hwv] at hw
      exact h.status w r o hw hlt

theorem Recorded.append (h : Recorded voucher accepted device place done)
    {y : VoucherPtr × Option D × ℤ} :
    Recorded voucher accepted (Function.update device k (device k ++ [y])) place done := by
  refine { h with status := ?_ }
  intro w r o hw hlt
  have hst := h.status w r o hw hlt
  by_cases hk : r.kind = k
  · subst hk
    obtain ⟨hlen, -⟩ := List.getElem?_eq_some_iff.mp hst
    rw [Function.update_self, List.getElem?_append_left hlen, hst]
  · rw [Function.update_of_ne hk, hst]

theorem Recorded.complete (h : Recorded voucher accepted device place done)
    (hv : place v = .request ⟨v, k, done k⟩ o)
    (hdev : (device k)[done k]? = some (v, (voucher v).sd, (voucher v).status)) {c : ℤ} :
    Recorded (Function.update voucher v { voucher v with completed := c }) accepted device place
      (Function.update done k (done k + 1)) := by
  have hsd : ∀ w, (Function.update voucher v { voucher v with completed := c } w).sd =
      (voucher w).sd := view_update Voucher.sd rfl
  have hrw : ∀ w, (Function.update voucher v { voucher v with completed := c } w).read_write =
      (voucher w).read_write := view_update Voucher.read_write rfl
  have hst : ∀ w, (Function.update voucher v { voucher v with completed := c } w).status =
      (voucher w).status := view_update Voucher.status rfl
  have hle : ∀ k', done k' ≤ Function.update done k (done k + 1) k' := by
    intro k'
    by_cases hk : k' = k
    · subst hk
      rw [Function.update_self]
      omega
    · rw [Function.update_of_ne hk]
  constructor
  · intro w r o' hw
    rw [hsd, hrw]
    exact h.fields w r o' hw
  · intro k' n y hy hn
    exact h.out k' n y hy (le_trans (hle k') hn)
  · intro w r o' hw hc
    by_cases hwv : w = v
    · subst hwv
      rw [hv, Place.request.injEq] at hw
      obtain ⟨rfl, -⟩ := hw
      change done k < Function.update done k (done k + 1) k
      rw [Function.update_self]
      omega
    · rw [Function.update_of_ne hwv] at hc
      exact lt_of_lt_of_le (h.completed w r o' hw hc) (hle _)
  · intro w r o' hw hlt
    rw [hsd, hst]
    by_cases hold : r.index < done r.kind
    · exact h.status w r o' hw hold
    -- the one request that is new is that of `v`
    · have hk : r.kind = k := by
        by_contra hk
        rw [Function.update_of_ne hk] at hlt
        exact hold hlt
      have hn : r.index = done k := by
        rw [hk, Function.update_self] at hlt
        rw [hk] at hold
        omega
      obtain rfl : w = v := h.index_unique hv hw hk hn
      rw [hk, hn]
      exact hdev

theorem AppOk.setVoucher (h : AppOk voucher done t pc) (hpc : pc.voucher ≠ some v)
    (hx : x.mute = (voucher v).mute) : AppOk (Function.update voucher v x) done t pc := by
  cases pc with
  | idle => trivial
  | take k b sd => trivial
  | submit ph k b sd w =>
    have hw : w ≠ v := fun hw => hpc (congrArg some hw)
    cases ph with
    | setReadWrite => trivial
    | setCompleted => simpa only [AppOk, Function.update_of_ne hw] using h
    | setSd => simpa only [AppOk, Function.update_of_ne hw] using h
    | enqueue => simpa only [AppOk, Function.update_of_ne hw] using h
  | giveBack w => exact h
  | redeem ph r out =>
    refine ⟨fun hl => ?_, h.2⟩
    rw [view_update Voucher.mute hx]
    exact h.1 hl

/-- A thread that does not hold the mutex of `v`. -/
theorem AppOk.setMute (h : AppOk voucher done t pc) (hm : (voucher v).mute ≠ some (.app t))
    {m : Option (Owner T)} :
    AppOk (Function.update voucher v { voucher v with mute := m }) done t pc := by
  have hrw := view_update (f := voucher) (i := v) (b := { voucher v with mute := m })
    Voucher.read_write rfl
  have hc := view_update (f := voucher) (i := v) (b := { voucher v with mute := m })
    Voucher.completed rfl
  have hsd := view_update (f := voucher) (i := v) (b := { voucher v with mute := m })
    Voucher.sd rfl
  cases pc with
  | idle => trivial
  | take k b sd => trivial
  | submit ph k b sd w =>
    cases ph with
    | setReadWrite => trivial
    | setCompleted => simpa only [AppOk, hrw] using h
    | setSd => simpa only [AppOk, hrw, hc] using h
    | enqueue => simpa only [AppOk, hrw, hc, hsd] using h
  | giveBack w => exact h
  | redeem ph r out =>
    refine ⟨fun hl => ?_, h.2⟩
    have hr : r.v ≠ v := by
      intro hr
      exact hm (hr ▸ h.1 hl)
    rw [Function.update_of_ne hr]
    exact h.1 hl

theorem AppOk.mono (h : AppOk voucher done t pc) (hle : ∀ k, done k ≤ done' k) :
    AppOk voucher done' t pc := by
  cases pc with
  | idle => trivial
  | take k b sd => trivial
  | submit ph k b sd w => cases ph <;> exact h
  | giveBack w => exact h
  | redeem ph r out => exact ⟨h.1, fun hp => lt_of_lt_of_le (h.2 hp) (hle _)⟩

theorem WorkerOk.setVoucher (h : WorkerOk voucher device place done k wpc)
    (hx : ∀ n o, place v = .request ⟨v, k, n⟩ o → x.mute = (voucher v).mute ∧
      x.sd = (voucher v).sd ∧ x.status = (voucher v).status) :
    WorkerOk (Function.update voucher v x) device place done k wpc := by
  cases wpc with
  | idle => trivial
  | busy ph w =>
    obtain ⟨n, o, hp, hok⟩ := h
    refine ⟨n, o, hp, ?_⟩
    by_cases hw : w = v
    · subst hw
      obtain ⟨hm, hsd, hst⟩ := hx n o hp
      cases ph <;> simpa only [WorkOk, Function.update_self, hm, hsd, hst] using hok
    · cases ph <;> simpa only [WorkOk, Function.update_of_ne hw] using hok

theorem WorkerOk.setMute (h : WorkerOk voucher device place done k wpc)
    (hm : (voucher v).mute ≠ some (.worker k)) {m : Option (Owner T)} :
    WorkerOk (Function.update voucher v { voucher v with mute := m }) device place done k wpc := by
  cases wpc with
  | idle => trivial
  | busy ph w =>
    obtain ⟨n, o, hp, hok⟩ := h
    refine ⟨n, o, hp, ?_⟩
    by_cases hw : w = v
    · subst hw
      cases ph with
      | lock => exact hok
      | readSd => exact absurd hok.2 hm
      | device sd => exact absurd hok.2.1 hm
      | store st => exact absurd hok.2.1 hm
      | complete => exact absurd hok.2.1 hm
      | signal => exact absurd hok.2 hm
      | unlock => exact absurd hok.2 hm
    · cases ph <;> simpa only [WorkOk, Function.update_of_ne hw] using hok

theorem WorkerOk.move (h : WorkerOk voucher device place done k wpc) {p : Place T}
    (hv : ∀ n o ph, place v = .request ⟨v, k, n⟩ o → WorkOk voucher (done k) k (device k) n v ph →
      ∃ o', p = .request ⟨v, k, n⟩ o') :
    WorkerOk voucher device (Function.update place v p) done k wpc := by
  cases wpc with
  | idle => trivial
  | busy ph w =>
    obtain ⟨n, o, hp, hok⟩ := h
    by_cases hw : w = v
    · subst hw
      obtain ⟨o', ho'⟩ := hv n o ph hp hok
      exact ⟨n, o', by rw [Function.update_self, ho'], hok⟩
    · exact ⟨n, o, by rw [Function.update_of_ne hw, hp], hok⟩

/-- The worker of the other kind does not see the log and the counter of this one. -/
theorem WorkerOk.congr {device' : Kind → List (VoucherPtr × Option D × ℤ)}
    (h : WorkerOk voucher device place done k wpc) (hdev : device' k = device k)
    (hdone : done' k = done k) : WorkerOk voucher device' place done' k wpc := by
  cases wpc with
  | idle => trivial
  | busy ph w =>
    obtain ⟨n, o, hp, hok⟩ := h
    exact ⟨n, o, hp, by rwa [hdev, hdone]⟩

end CIS415.DiskDriver
