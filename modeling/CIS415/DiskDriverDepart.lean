import CIS415.DiskDriverFrame
import CIS415.DiskDriverSpec

/-!
# Where the sector descriptors go

A descriptor leaves the driver when `redeem_voucher` stores it through `sd` or puts it into the free
sector descriptor store. The history of a run lists these departures. `redeem_voucher` hands back the
descriptor of a successful write and stores that of any read; for a failed write it does neither.
-/

namespace CIS415.DiskDriver

open Ownership System

variable {T D : Type}

inductive Channel where
  | handed
  | stored
deriving DecidableEq

/-- A descriptor leaves the driver for the request it was submitted with. -/
structure Departure (D : Type) where
  request : Request
  channel : Channel
  sd : Option D
deriving DecidableEq

def departure (s : State T D) : Action T D → Option (Departure D)
  | .app t =>
    match s.app t with
    | .redeem .storeSd r _ => some ⟨r, .handed, (s.voucher r.v).sd⟩
    | .redeem (.putSd sd) r _ => some ⟨r, .stored, sd⟩
    | _ => none
  | .submit .. => none
  | .redeem .. => none
  | .work .. => none

def departures [DecidableEq T] (as : List (Action T D)) : List (Departure D) :=
  observe step departure initDiskDriver as

def departuresOf (es : List (Departure D)) (r : Request) : List (Departure D) :=
  es.filter fun e => decide (e.request = r)

def Departure.inStore (e : Departure D) : Option (Option D) :=
  match e.channel with
  | .handed => none
  | .stored => some e.sd

theorem departuresOf_append_of_ne {es new : List (Departure D)} {r r' : Request}
    (hnew : ∀ e ∈ new, e.request = r) (hne : r' ≠ r) :
    departuresOf (es ++ new) r' = departuresOf es r' := by
  have hnil : new.filter (fun e => decide (e.request = r')) = [] := by
    rw [List.filter_eq_nil_iff]
    intro e he heq
    exact hne ((of_decide_eq_true heq).symm.trans (hnew e he))
  rw [departuresOf, List.filter_append, hnil, List.append_nil, departuresOf]

theorem departuresOf_append_self {es : List (Departure D)} {r : Request} {ch : Channel}
    {sd : Option D} :
    departuresOf (es ++ [⟨r, ch, sd⟩]) r = departuresOf es r ++ [⟨r, ch, sd⟩] := by
  simp [departuresOf]

/-- The channel through which `redeem_voucher` lets the descriptor of `r` go, from the status. -/
def channel (r : Request) (st : ℤ) : Option Channel :=
  match r.kind with
  | .read => some .stored
  | .write => if st = 1 then some .handed else none

def firstChannel (r : Request) (st : ℤ) : Option Channel :=
  if r.kind = .write ∧ st = 1 then some .handed else none

/-- The descriptor `sd` of `r` has left through the channel, and `out` is what `*sd` holds. -/
def Left (es : List (Departure D)) (r : Request) (sd : Option D) (out : Option (Option D)) :
    Option Channel → Prop
  | none => out = none ∧ departuresOf es r = []
  | some .handed => out = some sd ∧ departuresOf es r = [⟨r, .handed, sd⟩]
  | some .stored => out = none ∧ departuresOf es r = [⟨r, .stored, sd⟩]

/-- What holds at each phase, for the descriptor and the status of the request. -/
def RedeemOk (es : List (Departure D)) (r : Request) (sd : Option D) (st : ℤ)
    (out : Option (Option D)) : RedeemPhase D → Prop
  | .lock => Left es r sd out none
  | .test => Left es r sd out none
  | .release => Left es r sd out none
  | .wait => Left es r sd out none
  | .checkStatus => Left es r sd out none
  | .checkWrite => Left es r sd out none ∧ st = 1
  | .storeSd => Left es r sd out none ∧ st = 1 ∧ r.kind = .write
  | .checkRead => Left es r sd out (firstChannel r st)
  | .readSd => Left es r sd out none ∧ r.kind = .read
  | .putSd sd' => Left es r sd out none ∧ r.kind = .read ∧ sd' = sd
  | .reset => Left es r sd out (channel r st)
  | .giveBack => Left es r sd out (channel r st)
  | .unlock => Left es r sd out (channel r st)
  | .ret => Left es r sd out (channel r st)

def AppPC.ended : AppPC D → Option Request
  | .redeem ph r _ => if ph.returned then some r else none
  | _ => none

def Ended (s : State T D) (r : Request) : Prop :=
  (∃ t, (s.app t).ended = some r) ∨ ∃ x ∈ s.redeemed, x.1 = r

/-- The history `es` accounts for every request. -/
structure Departed (s : State T D) (es : List (Departure D)) : Prop where
  fresh : ∀ e ∈ es, e.request.index < (s.accepted e.request.kind).length
  pending : ∀ r ∈ s.issued, departuresOf es r = []
  ended : ∀ r, Ended s r → ¬ Outstanding s r ∧ r.index < (s.accepted r.kind).length
  redeeming : ∀ t ph r out, s.app t = .redeem ph r out → ∃ sd st,
    (ph.passed = true → (s.device r.kind)[r.index]? = some (r.v, sd, st)) ∧
      RedeemOk es r sd st out ph
  redeemed : ∀ x ∈ s.redeemed, ∃ sd st,
    (s.device x.1.kind)[x.1.index]? = some (x.1.v, sd, st) ∧ Left es x.1 sd x.2.2 (channel x.1 st)
  stored : s.fsds = es.filterMap Departure.inStore

theorem departed_init : Departed (initDiskDriver : State T D) [] where
  fresh := nofun
  pending := nofun
  ended := by
    rintro r (⟨t, ht⟩ | ⟨x, hx, _⟩)
    · cases ht
    · cases hx
  redeeming := nofun
  redeemed := nofun
  stored := rfl

theorem Left.congr {es es' : List (Departure D)} {r : Request} {sd : Option D}
    {out : Option (Option D)} {ch : Option Channel} (h : Left es r sd out ch)
    (heq : departuresOf es' r = departuresOf es r) : Left es' r sd out ch := by
  cases ch with
  | none => exact ⟨h.1, heq.trans h.2⟩
  | some ch =>
    cases ch with
    | handed => exact ⟨h.1, heq.trans h.2⟩
    | stored => exact ⟨h.1, heq.trans h.2⟩

theorem RedeemOk.congr {es es' : List (Departure D)} {r : Request} {sd : Option D} {st : ℤ}
    {out : Option (Option D)} {ph : RedeemPhase D} (h : RedeemOk es r sd st out ph)
    (heq : departuresOf es' r = departuresOf es r) : RedeemOk es' r sd st out ph := by
  cases ph with
  | checkWrite => exact h.imp_left (·.congr heq)
  | storeSd => exact h.imp_left (·.congr heq)
  | readSd => exact h.imp_left (·.congr heq)
  | putSd sd' => exact h.imp_left (·.congr heq)
  | checkRead => exact Left.congr h heq
  | reset | giveBack | unlock | ret => exact Left.congr h heq
  | lock | test | release | wait | checkStatus =>
    exact Left.congr (show Left es r sd out none from h) heq

variable {s s' : State T D} {place : VoucherPtr → Place T} {done : Kind → ℕ}
  {es new : List (Departure D)} {t u : T} {r r' : Request} {ph ph' : RedeemPhase D}
  {out out' : Option (Option D)} {pc : AppPC D}

theorem Inv.outstanding_index (hinv : Inv s place done) (h : Outstanding s r) :
    r.index < (s.accepted r.kind).length := by
  obtain ⟨o, ho⟩ := hinv.outstanding_iff.mp h
  exact (List.getElem?_eq_some_iff.mp (hinv.recorded.fields r.v r o ho).1).1

theorem Inv.request_unique (hinv : Inv s place done) (ht : (s.app t).request = some r)
    (hu : (s.app u).request = some r) : u = t := by
  have heq := (hinv.place_redeem hu).symm.trans (hinv.place_redeem ht)
  rw [Place.request.injEq, Option.some.injEq] at heq
  exact heq.2

theorem Inv.not_issued (hinv : Inv s place done) (ht : (s.app t).request = some r) :
    r ∉ s.issued := by
  intro hin
  cases (hinv.place_redeem ht).symm.trans ((hinv.owned (.request r none) r.v).mp ⟨rfl, hin⟩)

theorem ended_of_returned (h : ph.returned = true) : (AppPC.redeem ph r out).ended = some r := by
  simp [AppPC.ended, h]

/-- A thread that redeems a voucher which it has not returned is alone with its request. -/
theorem Departed.redeeming_ne (h : Departed s es) (hinv : Inv s place done)
    (ht : (s.app t).request = some r) (hut : u ≠ t) (hu : s.app u = .redeem ph' r' out') :
    r' ≠ r := by
  rintro rfl
  cases hret : ph'.returned with
  | false => exact hut (hinv.request_unique ht (by rw [hu]; exact request_of_returned hret))
  | true =>
    exact (h.ended r' (Or.inl ⟨u, by rw [hu]; exact ended_of_returned hret⟩)).1 (Or.inr ⟨t, ht⟩)

theorem Departed.redeemed_ne (h : Departed s es) (ht : (s.app t).request = some r)
    {x : Request × ℤ × Option (Option D)} (hx : x ∈ s.redeemed) : x.1 ≠ r := by
  intro heq
  exact (h.ended r (Or.inr ⟨x, hx, heq⟩)).1 (Or.inr ⟨t, ht⟩)

variable [DecidableEq T]

theorem Departed.elsewhere (h : Departed s es) (pc : AppPC D) (hr : pc.request = (s.app t).request)
    (he : pc.ended = (s.app t).ended) (hpc : ∀ ph r out, pc ≠ .redeem ph r out)
    (happ : s'.app = Function.update s.app t pc) (hiss : s'.issued = s.issued)
    (hacc : s'.accepted = s.accepted) (hdev : s'.device = s.device)
    (hred : s'.redeemed = s.redeemed) (hst : s'.fsds = s.fsds) : Departed s' es where
  fresh := by
    rw [hacc]
    exact h.fresh
  pending := by
    rw [hiss]
    exact h.pending
  ended := by
    simp only [Ended, Outstanding, happ, hiss, hred, hacc, view_update AppPC.request hr,
      view_update AppPC.ended he]
    exact h.ended
  redeeming := by
    intro u ph r out hu
    rw [happ] at hu
    have hut : u ≠ t := by
      rintro rfl
      rw [Function.update_self] at hu
      exact hpc ph r out hu
    rw [Function.update_of_ne hut] at hu
    rw [hdev]
    exact h.redeeming u ph r out hu
  redeemed := by
    rw [hred, hdev]
    exact h.redeemed
  stored := hst.trans h.stored

omit [DecidableEq T] in
theorem Departed.work (h : Departed s es) {k : Kind} (hf : WorkFrame s k s')
    (hiss : s'.issued = s.issued) (hst : s'.fsds = s.fsds) : Departed s' es where
  fresh := by
    rw [hf.accepted]
    exact h.fresh
  pending := by
    rw [hiss]
    exact h.pending
  ended := by
    simp only [Ended, Outstanding, hf.app, hiss, hf.redeemed, hf.accepted]
    exact h.ended
  redeeming := by
    intro t ph r out ht
    rw [hf.app] at ht
    obtain ⟨sd, st, hdev, hok⟩ := h.redeeming t ph r out ht
    exact ⟨sd, st, fun hp => hf.device _ _ _ (hdev hp), hok⟩
  redeemed := by
    intro x hx
    rw [hf.redeemed] at hx
    obtain ⟨sd, st, hdev, hleft⟩ := h.redeemed x hx
    exact ⟨sd, st, hf.device _ _ _ hdev, hleft⟩
  stored := hst.trans h.stored

theorem Departed.redeem (h : Departed s es) (hinv : Inv s place done)
    (ht : s.app t = .redeem ph r out) (hret : ph.returned = false) (ph' : RedeemPhase D)
    (out' : Option (Option D)) (hret' : ph'.returned = false) (hnew : ∀ e ∈ new, e.request = r)
    (hok : ∃ sd st, (ph'.passed = true → (s.device r.kind)[r.index]? = some (r.v, sd, st)) ∧
      RedeemOk (es ++ new) r sd st out' ph')
    (happ : s'.app = Function.update s.app t (.redeem ph' r out')) (hiss : s'.issued = s.issued)
    (hacc : s'.accepted = s.accepted) (hdev : s'.device = s.device)
    (hred : s'.redeemed = s.redeemed) (hst : s'.fsds = s.fsds ++ new.filterMap Departure.inStore) :
    Departed s' (es ++ new) := by
  have hreq : (s.app t).request = some r := by
    rw [ht]
    exact request_of_returned hret
  have hreq' : (AppPC.redeem ph' r out').request = (s.app t).request := by
    rw [hreq]
    exact request_of_returned hret'
  have hended : (AppPC.redeem ph' r out').ended = (s.app t).ended := by
    rw [ht]
    simp [AppPC.ended, hret, hret']
  exact {
    fresh := by
      rw [hacc]
      intro e he
      rcases List.mem_append.mp he with he | he
      · exact h.fresh e he
      · rw [hnew e he]
        exact hinv.outstanding_index (Or.inr ⟨t, hreq⟩)
    pending := by
      rw [hiss]
      intro q hq
      have hne : q ≠ r := by
        rintro rfl
        exact hinv.not_issued hreq hq
      rw [departuresOf_append_of_ne hnew hne]
      exact h.pending q hq
    ended := by
      simp only [Ended, Outstanding, happ, hiss, hred, hacc, view_update AppPC.request hreq',
        view_update AppPC.ended hended]
      exact h.ended
    redeeming := by
      intro u ph₁ r₁ out₁ hu
      rw [hdev]
      by_cases hut : u = t
      · subst hut
        rw [happ, Function.update_self] at hu
        obtain ⟨rfl, rfl, rfl⟩ := AppPC.redeem.inj hu
        exact hok
      · rw [happ, Function.update_of_ne hut] at hu
        obtain ⟨sd, st, hd, hok₁⟩ := h.redeeming u ph₁ r₁ out₁ hu
        exact ⟨sd, st, hd, hok₁.congr
          (departuresOf_append_of_ne hnew (h.redeeming_ne hinv hreq hut hu))⟩
    redeemed := by
      rw [hred, hdev]
      intro x hx
      obtain ⟨sd, st, hd, hleft⟩ := h.redeemed x hx
      exact ⟨sd, st, hd, hleft.congr (departuresOf_append_of_ne hnew (h.redeemed_ne hreq hx))⟩
    stored := by
      rw [hst, h.stored, List.filterMap_append] }

variable {k : Kind} {b : Bool} {sd : Option D} {v : VoucherPtr}

theorem Departed.enqueue (h : Departed s es) (ht : s.app t = .submit .enqueue k b sd v) :
    Departed ({ s with
      queue := Function.update s.queue k (s.queue k ++ [v])
      accepted := Function.update s.accepted k (s.accepted k ++ [(v, sd)])
      issued := s.issued ++ [(⟨v, k, (s.accepted k).length⟩ : Request)] }.setApp t .idle) es := by
  have hlen : ∀ k', (s.accepted k').length ≤
      (Function.update s.accepted k (s.accepted k ++ [(v, sd)]) k').length := by
    intro k'
    by_cases hk : k' = k
    · subst hk
      rw [Function.update_self, List.length_append]
      omega
    · rw [Function.update_of_ne hk]
  have hreq : ∀ u, (Function.update s.app t (.idle : AppPC D) u).request = (s.app u).request :=
    view_update AppPC.request (by rw [ht]; rfl)
  have hend : ∀ u, (Function.update s.app t (.idle : AppPC D) u).ended = (s.app u).ended :=
    view_update AppPC.ended (by rw [ht]; rfl)
  constructor
  · intro e he
    exact lt_of_lt_of_le (h.fresh e he) (hlen _)
  · intro r hr
    rcases List.mem_append.mp hr with hr | hr
    · exact h.pending r hr
    · rw [departuresOf, List.filter_eq_nil_iff]
      intro e he heq
      have hlt := h.fresh e he
      rw [of_decide_eq_true heq, List.mem_singleton.mp hr] at hlt
      exact lt_irrefl _ hlt
  · intro r hr
    have hr' : Ended s r := by
      rcases hr with ⟨u, hu⟩ | hx
      · exact Or.inl ⟨u, (hend u).symm.trans hu⟩
      · exact Or.inr hx
    obtain ⟨hout, hlt⟩ := h.ended r hr'
    refine ⟨?_, lt_of_lt_of_le hlt (hlen _)⟩
    rintro (hin | ⟨u, hu⟩)
    · rcases List.mem_append.mp hin with hin | hnew
      · exact hout (Or.inl hin)
      · rw [List.mem_singleton.mp hnew] at hlt
        exact lt_irrefl _ hlt
    · exact hout (Or.inr ⟨u, (hreq u).symm.trans hu⟩)
  · intro u ph r out hu
    have hut : u ≠ t := by
      rintro rfl
      rw [State.setApp_self] at hu
      cases hu
    rw [State.setApp_of_ne _ _ hut] at hu
    exact h.redeeming u ph r out hu
  · exact h.redeemed
  · exact h.stored

theorem Departed.call (h : Departed s es) (ht : s.app t = .idle) (hr : r ∈ s.issued) :
    Departed ({ s with issued := s.issued.erase r }.setApp t (.redeem .lock r none)) es := by
  have hend : ∀ u, (Function.update s.app t (.redeem .lock r none : AppPC D) u).ended =
      (s.app u).ended := view_update AppPC.ended (by rw [ht]; rfl)
  constructor
  · exact h.fresh
  · intro q hq
    exact h.pending q (List.mem_of_mem_erase hq)
  · intro q hq
    have hq' : Ended s q := by
      rcases hq with ⟨u, hu⟩ | hx
      · exact Or.inl ⟨u, (hend u).symm.trans hu⟩
      · exact Or.inr hx
    obtain ⟨hout, hlt⟩ := h.ended q hq'
    refine ⟨?_, hlt⟩
    rintro (hin | ⟨u, hu⟩)
    · exact hout (Or.inl (List.mem_of_mem_erase hin))
    · by_cases hut : u = t
      · subst hut
        rw [State.setApp_self] at hu
        obtain rfl : r = q := Option.some.inj hu
        exact hout (Or.inl hr)
      · rw [State.setApp_of_ne _ _ hut] at hu
        exact hout (Or.inr ⟨u, hu⟩)
  · intro u ph q out hu
    by_cases hut : u = t
    · subst hut
      rw [State.setApp_self] at hu
      obtain ⟨rfl, rfl, rfl⟩ := AppPC.redeem.inj hu
      exact ⟨none, 0, fun hp => absurd hp Bool.false_ne_true, rfl, h.pending _ hr⟩
    · rw [State.setApp_of_ne _ _ hut] at hu
      exact h.redeeming u ph q out hu
  · exact h.redeemed
  · exact h.stored

theorem Departed.giveBack (h : Departed s es) (hinv : Inv s place done)
    (ht : s.app t = .redeem .giveBack r out) :
    Departed ({ s with vouchBB := s.vouchBB ++ [r.v] }.setApp t (.redeem .unlock r out)) es := by
  have hreq : (s.app t).request = some r := by
    rw [ht]
    rfl
  constructor
  · exact h.fresh
  · exact h.pending
  · intro q hq
    have hcases : Ended s q ∨ q = r := by
      rcases hq with ⟨u, hu⟩ | hx
      · by_cases hut : u = t
        · subst hut
          rw [State.setApp_self] at hu
          exact Or.inr (Option.some.inj hu).symm
        · rw [State.setApp_of_ne _ _ hut] at hu
          exact Or.inl (Or.inl ⟨u, hu⟩)
      · exact Or.inl (Or.inr hx)
    have hless : ∀ q, Outstanding ({ s with vouchBB := s.vouchBB ++ [r.v] }.setApp t
        (.redeem .unlock r out)) q → Outstanding s q ∧ q ≠ r := by
      rintro q (hin | ⟨u, hu⟩)
      · refine ⟨Or.inl hin, ?_⟩
        rintro rfl
        exact hinv.not_issued hreq hin
      · have hut : u ≠ t := by
          rintro rfl
          rw [State.setApp_self] at hu
          cases hu
        rw [State.setApp_of_ne _ _ hut] at hu
        refine ⟨Or.inr ⟨u, hu⟩, ?_⟩
        rintro rfl
        exact hut (hinv.request_unique hreq hu)
    rcases hcases with hq | rfl
    · obtain ⟨hout, hlt⟩ := h.ended q hq
      exact ⟨fun ho => hout (hless q ho).1, hlt⟩
    · exact ⟨fun ho => (hless q ho).2 rfl, hinv.outstanding_index (Or.inr ⟨t, hreq⟩)⟩
  · intro u ph q out' hu
    by_cases hut : u = t
    · subst hut
      rw [State.setApp_self] at hu
      obtain ⟨rfl, rfl, rfl⟩ := AppPC.redeem.inj hu
      exact h.redeeming u .giveBack _ _ ht
    · rw [State.setApp_of_ne _ _ hut] at hu
      exact h.redeeming u ph q out' hu
  · exact h.redeemed
  · exact h.stored

theorem Departed.unlock (h : Departed s es) (ht : s.app t = .redeem .unlock r out)
    (x : Voucher T D) :
    Departed ((s.setVoucher r.v x).setApp t (.redeem .ret r out)) es := by
  have hreq : ∀ u, (Function.update s.app t (.redeem .ret r out) u).request =
      (s.app u).request := view_update AppPC.request (by rw [ht]; rfl)
  have hend : ∀ u, (Function.update s.app t (.redeem .ret r out) u).ended = (s.app u).ended :=
    view_update AppPC.ended (by rw [ht]; rfl)
  constructor
  · exact h.fresh
  · exact h.pending
  · simp only [Ended, Outstanding, State.setApp, State.setVoucher, hreq, hend]
    exact h.ended
  · intro u ph q out' hu
    by_cases hut : u = t
    · subst hut
      rw [State.setApp_self] at hu
      obtain ⟨rfl, rfl, rfl⟩ := AppPC.redeem.inj hu
      exact h.redeeming u .unlock _ _ ht
    · rw [State.setApp_of_ne _ _ hut] at hu
      exact h.redeeming u ph q out' hu
  · exact h.redeemed
  · exact h.stored

theorem Departed.ret (h : Departed s es) (ht : s.app t = .redeem .ret r out) (st : ℤ) :
    Departed ({ s with redeemed := s.redeemed ++ [(r, st, out)] }.setApp t .idle) es := by
  have hreq : ∀ u, (Function.update s.app t (.idle : AppPC D) u).request = (s.app u).request :=
    view_update AppPC.request (by rw [ht]; rfl)
  constructor
  · exact h.fresh
  · exact h.pending
  · intro q hq
    have hq' : Ended s q := by
      rcases hq with ⟨u, hu⟩ | ⟨x, hx, hxq⟩
      · have hut : u ≠ t := by
          rintro rfl
          rw [State.setApp_self] at hu
          cases hu
        rw [State.setApp_of_ne _ _ hut] at hu
        exact Or.inl ⟨u, hu⟩
      · rcases List.mem_append.mp hx with hx | hx
        · exact Or.inr ⟨x, hx, hxq⟩
        · rw [List.mem_singleton.mp hx] at hxq
          exact Or.inl ⟨t, by rw [ht, ← hxq]; rfl⟩
    obtain ⟨hout, hlt⟩ := h.ended q hq'
    refine ⟨?_, hlt⟩
    rintro (hin | ⟨u, hu⟩)
    · exact hout (Or.inl hin)
    · exact hout (Or.inr ⟨u, (hreq u).symm.trans hu⟩)
  · intro u ph q out' hu
    have hut : u ≠ t := by
      rintro rfl
      rw [State.setApp_self] at hu
      cases hu
    rw [State.setApp_of_ne _ _ hut] at hu
    exact h.redeeming u ph q out' hu
  · intro x hx
    rcases List.mem_append.mp hx with hx | hx
    · exact h.redeemed x hx
    · rw [List.mem_singleton.mp hx]
      obtain ⟨sd, st', hdev, hleft⟩ := h.redeeming t .ret r out ht
      exact ⟨sd, st', hdev rfl, hleft⟩
  · exact h.stored

omit [DecidableEq T] in
theorem Inv.flag (hinv : Inv s place done) (ht : s.app t = .redeem ph r out)
    (hret : ph.returned = false) : (s.voucher r.v).read_write = r.kind.flag :=
  (hinv.recorded.fields r.v r (some t)
    (hinv.place_redeem (by rw [ht]; exact request_of_returned hret))).2

omit [DecidableEq T] in
/-- A call that has left the wait loop finds the result of its own request. -/
theorem Inv.current (hinv : Inv s place done) (ht : s.app t = .redeem ph r out)
    (hret : ph.returned = false) (hlt : r.index < done r.kind) :
    (s.device r.kind)[r.index]? =
      some (r.v, (s.voucher r.v).sd, (s.voucher r.v).status) :=
  hinv.recorded.status r.v r (some t)
    (hinv.place_redeem (by rw [ht]; exact request_of_returned hret)) hlt

theorem Kind.flag_eq_one {k : Kind} : k.flag = 1 ↔ k = .write := by
  cases k <;> simp [Kind.flag]

theorem Kind.flag_eq_zero {k : Kind} : k.flag = 0 ↔ k = .read := by
  cases k <;> simp [Kind.flag]

theorem channel_of_read {st : ℤ} (h : r.kind = .read) : channel r st = some .stored := by
  rw [channel, h]

theorem firstChannel_of_read {st : ℤ} (h : r.kind = .read) : firstChannel r st = none := by
  rw [firstChannel, if_neg (by simp [h])]

theorem firstChannel_of_write {st : ℤ} (h : r.kind = .write) :
    firstChannel r st = channel r st := by
  rw [firstChannel, channel, h]
  simp

theorem Departed.next (h : Departed s es) (hinv : Inv s place done) (sd : Option D) (st : ℤ)
    (ht : s.app t = .redeem ph r out) (hret : ph.returned = false) (ph' : RedeemPhase D)
    (hret' : ph'.returned = false)
    (hdev : ph'.passed = true → (s.device r.kind)[r.index]? = some (r.v, sd, st))
    (hok : RedeemOk es r sd st out ph') (x : VoucherPtr → Voucher T D) :
    Departed ({ s with voucher := x }.setApp t (.redeem ph' r out)) (es ++ []) :=
  h.redeem hinv ht hret ph' out hret' (fun _ he => absurd he List.not_mem_nil)
    ⟨sd, st, hdev, by rwa [List.append_nil]⟩ rfl rfl rfl rfl rfl (List.append_nil _).symm

theorem Departed.redeemStep (h : Departed s es) (hinv : Inv s place done)
    (ht : s.app t = .redeem ph r out) (hs : redeemStep s t r out ph = some s') :
    Departed s' (es ++ (departure s (.app t)).toList) := by
  obtain ⟨sd, st, hdev, hok⟩ := h.redeeming t ph r out ht
  have hthread := hinv.app_ok t
  rw [ht] at hthread
  have hcur : ph.returned = false → ph.passed = true →
      sd = (s.voucher r.v).sd ∧ st = (s.voucher r.v).status := by
    intro hret hp
    have heq := (hdev hp).symm.trans (hinv.current ht hret (hthread.2 hp))
    simpa using heq
  have hfalse : ∀ {P : Prop}, false = true → P := fun h => absurd h Bool.false_ne_true
  rw [departure, ht]
  cases ph with
  | lock =>
    rw [DiskDriver.redeemStep] at hs
    split_ifs at hs
    obtain rfl := Option.some.inj hs
    exact h.next hinv sd st ht rfl .test rfl hfalse hok _
  | test =>
    rw [DiskDriver.redeemStep] at hs
    split_ifs at hs with hc
    · obtain rfl := Option.some.inj hs
      exact h.next hinv sd st ht rfl .release rfl hfalse hok _
    · obtain rfl := Option.some.inj hs
      have hplace : place r.v = .request r (some t) := hinv.place_redeem (by rw [ht]; rfl)
      have hlt := hinv.recorded.completed r.v r (some t) hplace (by omega)
      exact h.next hinv (s.voucher r.v).sd (s.voucher r.v).status ht rfl .checkStatus rfl
        (fun _ => hinv.current ht rfl hlt) hok _
  | release =>
    obtain rfl := Option.some.inj hs
    exact h.next hinv sd st ht rfl .wait rfl hfalse hok _
  | wait =>
    obtain rfl := Option.some.inj hs
    exact h.next hinv sd st ht rfl .lock rfl hfalse hok _
  | checkStatus =>
    obtain ⟨rfl, rfl⟩ := hcur rfl rfl
    rw [DiskDriver.redeemStep] at hs
    split_ifs at hs with hst
    · obtain rfl := Option.some.inj hs
      exact h.next hinv _ _ ht rfl .checkWrite rfl hdev ⟨hok, hst⟩ _
    · obtain rfl := Option.some.inj hs
      refine h.next hinv _ _ ht rfl .checkRead rfl hdev ?_ _
      rw [RedeemOk, firstChannel, if_neg fun hw => hst hw.2]
      exact hok
  | checkWrite =>
    obtain ⟨hleft, hst⟩ := hok
    simp only [DiskDriver.redeemStep, hinv.flag ht rfl, Kind.flag_eq_one] at hs
    split_ifs at hs with hw
    · obtain rfl := Option.some.inj hs
      exact h.next hinv sd st ht rfl .storeSd rfl hdev ⟨hleft, hst, hw⟩ _
    · obtain rfl := Option.some.inj hs
      refine h.next hinv sd st ht rfl .checkRead rfl hdev ?_ _
      rw [RedeemOk, firstChannel, if_neg fun h => hw h.1]
      exact hleft
  | storeSd =>
    obtain ⟨⟨_, hnone⟩, hst, hw⟩ := hok
    obtain ⟨rfl, rfl⟩ := hcur rfl rfl
    obtain rfl := Option.some.inj hs
    refine h.redeem hinv ht rfl .checkRead (some (s.voucher r.v).sd) rfl (by simp)
      ⟨_, _, hdev, ?_⟩ rfl rfl rfl rfl rfl (List.append_nil _).symm
    rw [RedeemOk, firstChannel, if_pos ⟨hw, hst⟩]
    exact ⟨rfl, by rw [Option.toList, departuresOf_append_self, hnone]; rfl⟩
  | checkRead =>
    simp only [DiskDriver.redeemStep, hinv.flag ht rfl, Kind.flag_eq_zero] at hs
    split_ifs at hs with hr
    · obtain rfl := Option.some.inj hs
      rw [RedeemOk, firstChannel_of_read hr] at hok
      exact h.next hinv sd st ht rfl .readSd rfl hdev ⟨hok, hr⟩ _
    · obtain rfl := Option.some.inj hs
      have hw : r.kind = .write := by
        cases hk : r.kind with
        | read => exact absurd hk hr
        | write => rfl
      rw [RedeemOk, firstChannel_of_write hw] at hok
      exact h.next hinv sd st ht rfl .reset rfl hdev hok _
  | readSd =>
    obtain ⟨hleft, hr⟩ := hok
    obtain ⟨rfl, rfl⟩ := hcur rfl rfl
    obtain rfl := Option.some.inj hs
    exact h.next hinv _ _ ht rfl (.putSd _) rfl hdev ⟨hleft, hr, rfl⟩ _
  | putSd sd' =>
    obtain ⟨⟨hout, hnone⟩, hr, rfl⟩ := hok
    obtain rfl := Option.some.inj hs
    refine h.redeem hinv ht rfl .reset out rfl (by simp) ⟨_, _, hdev, ?_⟩ rfl rfl rfl rfl rfl rfl
    rw [RedeemOk, channel_of_read hr]
    exact ⟨hout, by rw [Option.toList, departuresOf_append_self, hnone]; rfl⟩
  | reset =>
    obtain rfl := Option.some.inj hs
    exact h.next hinv sd st ht rfl .giveBack rfl hdev hok _
  | giveBack =>
    rw [DiskDriver.redeemStep] at hs
    split_ifs at hs
    obtain rfl := Option.some.inj hs
    rw [Option.toList, List.append_nil]
    exact h.giveBack hinv ht
  | unlock =>
    obtain rfl := Option.some.inj hs
    rw [Option.toList, List.append_nil]
    exact h.unlock ht _
  | ret =>
    obtain rfl := Option.some.inj hs
    rw [Option.toList, List.append_nil]
    exact h.ret ht _

theorem Departed.submitStep (h : Departed s es) {ph : SubmitPhase}
    (ht : s.app t = .submit ph k b sd v) (hs : submitStep s t k b sd v ph = some s') :
    Departed s' es := by
  have hmove : ∀ (pc : AppPC D) (x : VoucherPtr → Voucher T D), pc.request = none →
      pc.ended = none → (∀ ph r out, pc ≠ .redeem ph r out) →
      Departed ({ s with voucher := x }.setApp t pc) es := by
    intro pc x hr he hpc
    exact h.elsewhere pc (by rw [hr, ht]; rfl) (by rw [he, ht]; rfl) hpc rfl rfl rfl rfl rfl rfl
  cases ph with
  | setReadWrite =>
    obtain rfl := Option.some.inj hs
    exact hmove _ _ rfl rfl fun _ _ _ heq => by cases heq
  | setCompleted =>
    obtain rfl := Option.some.inj hs
    exact hmove _ _ rfl rfl fun _ _ _ heq => by cases heq
  | setSd =>
    obtain rfl := Option.some.inj hs
    exact hmove _ _ rfl rfl fun _ _ _ heq => by cases heq
  | enqueue =>
    rw [DiskDriver.submitStep] at hs
    split_ifs at hs
    · obtain rfl := Option.some.inj hs
      exact h.enqueue ht
    · obtain rfl := Option.some.inj hs
      exact hmove (.giveBack v) s.voucher rfl rfl fun _ _ _ heq => by cases heq

theorem work_issued {st : ℤ} (hs : step s (.work k st) = some s') :
    s'.issued = s.issued ∧ s'.fsds = s.fsds := by
  rw [step] at hs
  split at hs
  · split at hs
    · cases hs
    · obtain rfl := Option.some.inj hs
      exact ⟨rfl, rfl⟩
  · rename_i ph v hw
    cases ph with
    | lock =>
      rw [workStep] at hs
      split_ifs at hs
      obtain rfl := Option.some.inj hs
      exact ⟨rfl, rfl⟩
    | _ =>
      obtain rfl := Option.some.inj hs
      exact ⟨rfl, rfl⟩

theorem Departed.step (h : Departed s es) (hinv : Inv s place done) {a : Action T D}
    (hs : step s a = some s') : Departed s' (es ++ (departure s a).toList) := by
  cases a with
  | submit t k b sd =>
    rw [departure, Option.toList, List.append_nil]
    rw [DiskDriver.step] at hs
    split at hs
    · rename_i ht
      obtain rfl := Option.some.inj hs
      exact h.elsewhere (.take k b sd) (by rw [ht]; rfl) (by rw [ht]; rfl)
        (fun _ _ _ heq => by cases heq) rfl rfl rfl rfl rfl rfl
    · cases hs
  | redeem t r =>
    rw [departure, Option.toList, List.append_nil]
    rw [DiskDriver.step] at hs
    split at hs
    · rename_i ht
      split_ifs at hs with hr
      obtain rfl := Option.some.inj hs
      exact h.call ht hr
    · cases hs
  | work k st =>
    rw [departure, Option.toList, List.append_nil]
    obtain ⟨hiss, hst⟩ := work_issued hs
    exact h.work (work_frame hs) hiss hst
  | app t =>
    change appStep s t = some s' at hs
    cases ht : s.app t with
    | idle =>
      rw [appStep, ht] at hs
      cases hs
    | take k b sd =>
      rw [departure, ht, Option.toList, List.append_nil]
      rw [appStep, ht] at hs
      cases hbb : s.vouchBB with
      | nil =>
        rw [hbb] at hs
        cases hs
      | cons v rest =>
        rw [hbb] at hs
        obtain rfl := Option.some.inj hs
        exact h.elsewhere (.submit .setReadWrite k b sd v) (by rw [ht]; rfl)
          (by rw [ht]; rfl) (fun _ _ _ heq => by cases heq) rfl rfl rfl rfl rfl rfl
    | submit ph k b sd v =>
      rw [departure, ht, Option.toList, List.append_nil]
      rw [appStep, ht] at hs
      exact h.submitStep ht hs
    | giveBack v =>
      have hok := hinv.app_ok t
      rw [ht] at hok
      exact hok.elim
    | redeem ph r out =>
      rw [appStep, ht] at hs
      exact h.redeemStep hinv ht hs

theorem departed_run {as : List (Action T D)} (h : run as = some s) : Departed s (departures as) := by
  have hstep : ∀ s (es : List (Departure D)) (a : Action T D) s',
      ((∃ place done, Inv s place done) ∧ Departed s es) → DiskDriver.step s a = some s' →
      (∃ place done, Inv s' place done) ∧ Departed s' (es ++ (departure s a).toList) := by
    rintro s es a s' ⟨⟨place, done, hinv⟩, hdep⟩ hs
    exact ⟨hinv.step hs, hdep.step hinv hs⟩
  have hinit : (∃ place done, Inv (initDiskDriver : State T D) place done) ∧
      Departed (initDiskDriver : State T D) [] := ⟨⟨_, _, inv_init⟩, departed_init⟩
  exact (observe_invariant (I := fun s es => (∃ place done, Inv s place done) ∧ Departed s es)
    hstep hinit h).2

/-- The descriptor submitted with the request has left the driver exactly once, by one of the two
channels, and `*sd` holds it if and only if it was handed back. -/
def LeavesOnce (as : List (Action T D)) (s : State T D) (r : Request)
    (out : Option (Option D)) : Prop :=
  ∃ sd, (s.accepted r.kind)[r.index]? = some (r.v, sd) ∧
    ((departuresOf (departures as) r = [⟨r, .handed, sd⟩] ∧ out = some sd) ∨
      (departuresOf (departures as) r = [⟨r, .stored, sd⟩] ∧ out = none))

/-- The device operation for the request returned `st`. -/
def DeviceStatus (s : State T D) (r : Request) (st : ℤ) : Prop :=
  ∃ sd, (s.device r.kind)[r.index]? = some (r.v, sd, st)

/-- The descriptor of a redeemed request has left the driver exactly once if and only if the request
was not a failed write; that of a request still to be redeemed has not left it. -/
theorem leaves_once_iff {as : List (Action T D)} (h : run as = some s) :
    (∀ x ∈ s.redeemed,
      LeavesOnce as s x.1 x.2.2 ↔ x.1.kind = .read ∨ DeviceStatus s x.1 1) ∧
    ∀ r ∈ s.issued, departuresOf (departures as) r = [] := by
  obtain ⟨place, done, hinv⟩ := inv_run h
  have hdep := departed_run h
  refine ⟨fun x hx => ?_, hdep.pending⟩
  obtain ⟨sd, st, hdev, hleft⟩ := hdep.redeemed x hx
  have hacc := hinv.logged.accepted_of_device hdev
  cases hk : x.1.kind with
  | read =>
    rw [channel_of_read hk] at hleft
    exact ⟨fun _ => Or.inl rfl, fun _ => ⟨sd, hacc, Or.inr ⟨hleft.2, hleft.1⟩⟩⟩
  | write =>
    have hstatus : DeviceStatus s x.1 1 ↔ st = 1 := by
      constructor
      · rintro ⟨sd', hdev'⟩
        have heq := hdev.symm.trans hdev'
        simp only [Option.some.injEq, Prod.mk.injEq, true_and] at heq
        exact heq.2
      · rintro rfl
        exact ⟨sd, hdev⟩
    by_cases hst : st = 1
    · have hch : channel x.1 st = some .handed := by
        rw [channel, hk]
        exact if_pos hst
      rw [hch] at hleft
      exact ⟨fun _ => Or.inr (hstatus.mpr hst), fun _ => ⟨sd, hacc, Or.inl ⟨hleft.2, hleft.1⟩⟩⟩
    · have hch : channel x.1 st = none := by
        rw [channel, hk]
        exact if_neg hst
      rw [hch] at hleft
      constructor
      · rintro ⟨sd', _, ⟨hone, _⟩ | ⟨hone, _⟩⟩
        · cases hleft.2.symm.trans hone
        · cases hleft.2.symm.trans hone
      · rintro (hread | hok)
        · cases hread
        · exact absurd (hstatus.mp hok) hst

def redeemedOnce (k : Kind) (status : ℤ) (n : ℕ) : List (Action Unit Bool) :=
  .submit () k true (some true) :: List.replicate 5 (.app ()) ++
    List.replicate 8 (.work k status) ++ .redeem () ⟨⟨0, vSize_pos⟩, k, 0⟩ ::
      List.replicate n (.app ())

theorem redeemed_failed_write : (run (redeemedOnce .write 0 8)).map State.redeemed =
    some [(⟨⟨0, vSize_pos⟩, .write, 0⟩, 0, none)] := by
  decide +kernel

theorem redeemed_successful_read : (run (redeemedOnce .read 1 11)).map State.redeemed =
    some [(⟨⟨0, vSize_pos⟩, .read, 0⟩, 1, none)] := by
  decide +kernel

theorem leaves_once_iff_failed_write : ∃ s, run (redeemedOnce .write 0 8) = some s ∧
    s.redeemed ≠ [] ∧
    (∀ x ∈ s.redeemed, LeavesOnce (redeemedOnce .write 0 8) s x.1 x.2.2 ↔
      x.1.kind = .read ∨ DeviceStatus s x.1 1) ∧
    ∀ r ∈ s.issued, departuresOf (departures (redeemedOnce .write 0 8)) r = [] := by
  obtain ⟨s, hs, hred⟩ := Option.map_eq_some_iff.mp redeemed_failed_write
  exact ⟨s, hs, by simp [hred], leaves_once_iff hs⟩

/-- The descriptor of a write that the device refuses is lost. -/
theorem failed_write_keeps : ¬ ∀ (as : List (Action Unit Bool)) (s : State Unit Bool),
    run as = some s → ∀ x ∈ s.redeemed, LeavesOnce as s x.1 x.2.2 := by
  intro h
  have hdep : departures (redeemedOnce .write 0 8) = [] := by
    decide +kernel
  obtain ⟨s, hs, hred⟩ := Option.map_eq_some_iff.mp redeemed_failed_write
  obtain ⟨sd, _, hleft⟩ := h _ s hs (⟨⟨0, vSize_pos⟩, .write, 0⟩, 0, none) (by simp [hred])
  rw [hdep] at hleft
  rcases hleft with ⟨hone, _⟩ | ⟨hone, _⟩
  · cases hone
  · cases hone

/-- What the redeemer of a successful read is promised: `*sd` is the descriptor that was submitted,
and the driver has not put it into the store. -/
def ReadHandedBack (as : List (Action T D)) (s : State T D) (r : Request)
    (out : Option (Option D)) : Prop :=
  ∃ sd, (s.accepted r.kind)[r.index]? = some (r.v, sd) ∧ out = some sd ∧
    ⟨r, .stored, sd⟩ ∉ departures as

/-- No read that is redeemed is handed back: the driver has put its descriptor into the store and left
`*sd` alone. -/
theorem read_never_handed_back {as : List (Action T D)} (h : run as = some s)
    {x : Request × ℤ × Option (Option D)} (hx : x ∈ s.redeemed) (hk : x.1.kind = .read) :
    ¬ ReadHandedBack as s x.1 x.2.2 := by
  rintro ⟨sd, _, hout, _⟩
  obtain ⟨sd', st, _, hleft⟩ := (departed_run h).redeemed x hx
  rw [channel_of_read hk] at hleft
  cases hleft.1.symm.trans hout

theorem read_never_handed_back_one : ∃ s, run (redeemedOnce .read 1 11) = some s ∧
    ∃ x ∈ s.redeemed, x.1.kind = .read ∧ ¬ ReadHandedBack (redeemedOnce .read 1 11) s x.1 x.2.2 := by
  obtain ⟨s, hs, hred⟩ := Option.map_eq_some_iff.mp redeemed_successful_read
  have hx : (⟨⟨0, vSize_pos⟩, .read, 0⟩, 1, none) ∈ s.redeemed := by simp [hred]
  exact ⟨s, hs, _, hx, rfl, read_never_handed_back hs hx rfl⟩

theorem successful_read_stored : ¬ ∀ (as : List (Action Unit Bool)) (s : State Unit Bool),
    run as = some s → ∀ x ∈ s.redeemed, x.1.kind = .read → DeviceStatus s x.1 1 →
      ReadHandedBack as s x.1 x.2.2 := by
  intro h
  have hdev : (run (redeemedOnce .read 1 11)).map (fun s => s.device .read) =
      some [(⟨0, vSize_pos⟩, some true, 1)] := by
    decide +kernel
  obtain ⟨s, hs, hred⟩ := Option.map_eq_some_iff.mp redeemed_successful_read
  rw [hs, Option.map_some, Option.some.injEq] at hdev
  obtain ⟨sd, _, hout, _⟩ := h _ s hs (⟨⟨0, vSize_pos⟩, .read, 0⟩, 1, none) (by simp [hred]) rfl
    ⟨some true, by rw [hdev]; rfl⟩
  cases hout

end CIS415.DiskDriver
