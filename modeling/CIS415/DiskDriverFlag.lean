import CIS415.DiskDriverDepart
import CIS415.DiskDriverOrder

/-!
# The completed flag

The worker sets the completed flag of a voucher when the request is done, and `redeem_voucher` resets it
once it has what it came for. In between a call relies on the flag: it is set for every request that is
done. Only the test of the flag takes a call back, to wait.
-/

namespace CIS415.DiskDriver

open Ownership System

variable {T D : Type} {s s' : State T D} {place : VoucherPtr → Place T} {done : Kind → ℕ} {t : T}
  {k : Kind} {v : VoucherPtr} {r : Request} {out : Option (Option D)} {st : ℤ}

/-- The requests of kind `k` whose voucher has been marked completed. -/
def State.finished (s : State T D) (k : Kind) : ℕ :=
  (s.device k).length - (s.worker k).logged

theorem Inv.finished_eq (h : Inv s place done) : s.finished = done := by
  funext k
  have hd := h.logged.done_eq k
  rw [State.finished]
  omega

def RedeemPhase.marked : RedeemPhase D → Bool
  | .giveBack => false
  | .unlock => false
  | .ret => false
  | _ => true

/-- The request for which a call relies on the completed flag. -/
def AppPC.relies : AppPC D → Option Request
  | .redeem ph r _ => if ph.marked then some r else none
  | _ => none

def State.Marked (s : State T D) (r : Request) : Prop :=
  r ∈ s.issued ∨ ∃ t, (s.app t).relies = some r

theorem request_of_relies {pc : AppPC D} (h : pc.relies = some r) : pc.request = some r := by
  cases pc with
  | redeem ph r' out =>
    cases ph <;> first | exact h | cases h
  | _ => cases h

theorem Inv.place_marked (h : Inv s place done) (hr : s.Marked r) :
    ∃ o, place r.v = .request r o ∧
      (o = none ∧ r ∈ s.issued ∨ ∃ t, o = some t ∧ (s.app t).relies = some r) := by
  rcases hr with hr | ⟨t, ht⟩
  · exact ⟨none, (h.owned (.request r none) r.v).mp ⟨rfl, hr⟩, Or.inl ⟨rfl, hr⟩⟩
  · exact ⟨some t, h.place_redeem (request_of_relies ht), Or.inr ⟨t, rfl, ht⟩⟩

variable [DecidableEq T]

theorem submitStep_completed {ph : SubmitPhase} {b : Bool} {sd : Option D}
    (hs : submitStep s t k b sd v ph = some s') {w : VoucherPtr} (hw : w ≠ v) :
    (s'.voucher w).completed = (s.voucher w).completed := by
  have hset : ∀ x : Voucher T D, (Function.update s.voucher v x w).completed =
      (s.voucher w).completed := fun x => by rw [Function.update_of_ne hw]
  cases ph with
  | enqueue =>
    rw [submitStep] at hs
    split_ifs at hs
    all_goals
      obtain rfl := Option.some.inj hs
      rfl
  | _ =>
    obtain rfl := Option.some.inj hs
    exact hset _

theorem marked_setApp (t : T) (pc : AppPC D) (hr : s'.Marked r) (hiss : s'.issued = s.issued)
    (happ : s'.app = Function.update s.app t pc) :
    pc.relies = some r ∨ r ∈ s.issued ∨ ∃ u, u ≠ t ∧ (s.app u).relies = some r := by
  rcases hr with hr | ⟨u, hu⟩
  · exact Or.inr (Or.inl (hiss ▸ hr))
  · rw [happ] at hu
    by_cases hut : u = t
    · subst hut
      rw [Function.update_self] at hu
      exact Or.inl hu
    · rw [Function.update_of_ne hut] at hu
      exact Or.inr (Or.inr ⟨u, hut, hu⟩)

omit [DecidableEq T] in
theorem marked_of_others (hr : r ∈ s.issued ∨ ∃ u, u ≠ t ∧ (s.app u).relies = some r) :
    s.Marked r :=
  hr.imp id fun ⟨u, _, hu⟩ => ⟨u, hu⟩

theorem marked_of_setApp (t : T) (pc : AppPC D) (hr : s'.Marked r) (hpc : pc.relies = none)
    (hiss : s'.issued = s.issued) (happ : s'.app = Function.update s.app t pc) : s.Marked r := by
  rcases marked_setApp t pc hr hiss happ with hrel | hr
  · rw [hpc] at hrel
    cases hrel
  · exact marked_of_others hr

theorem submitStep_marked {ph : SubmitPhase} {b : Bool} {sd : Option D}
    (hs : submitStep s t k b sd v ph = some s') (hr : s'.Marked r) :
    s.Marked r ∨ (s.accepted r.kind).length = r.index := by
  cases ph with
  | enqueue =>
    rw [submitStep] at hs
    split_ifs at hs with hroom
    · obtain rfl := Option.some.inj hs
      rcases hr with hr | ⟨u, hu⟩
      · rcases List.mem_append.mp hr with hold | hnew
        · exact Or.inl (Or.inl hold)
        · obtain rfl := List.mem_singleton.mp hnew
          exact Or.inr rfl
      · have hr : (s.setApp t .idle).Marked r := Or.inr ⟨u, hu⟩
        exact Or.inl (marked_of_setApp t .idle hr rfl rfl rfl)
    · obtain rfl := Option.some.inj hs
      exact Or.inl (marked_of_setApp t (.giveBack v) hr rfl rfl rfl)
  | setReadWrite =>
    obtain rfl := Option.some.inj hs
    exact Or.inl (marked_of_setApp t (.submit .setCompleted k b sd v) hr rfl rfl rfl)
  | setCompleted =>
    obtain rfl := Option.some.inj hs
    exact Or.inl (marked_of_setApp t (.submit .setSd k b sd v) hr rfl rfl rfl)
  | setSd =>
    obtain rfl := Option.some.inj hs
    exact Or.inl (marked_of_setApp t (.submit .enqueue k b sd v) hr rfl rfl rfl)

/-- The flag of a request that has been completed is set, as long as something relies on it. -/
def State.FlagsSet (s : State T D) : Prop :=
  ∀ r, s.Marked r → r.index < s.finished r.kind → (s.voucher r.v).completed = 1

theorem flagsSet_submit (hinv : Inv s place done) (h : s.FlagsSet) {ph : SubmitPhase} {b : Bool}
    {sd : Option D} (ht : s.app t = .submit ph k b sd v)
    (hs : submitStep s t k b sd v ph = some s') : s'.FlagsSet := by
  have hframe := submitStep_frame ht hs
  have hfin : s'.finished = s.finished := by
    funext k'
    rw [State.finished, State.finished, hframe.device, hframe.worker]
  intro r hr hlt
  rw [hfin] at hlt
  rcases submitStep_marked hs hr with hr | hnew
  · have hne : r.v ≠ v := by
      obtain ⟨o, ho, -⟩ := hinv.place_marked hr
      have hsub := hinv.place_submit (v := v) (by rw [ht]; rfl)
      rintro rfl
      cases hsub.symm.trans ho
    rw [submitStep_completed hs hne]
    exact h r hr hlt
  · have hle := hinv.logged.done_le r.kind
    rw [hinv.finished_eq] at hlt
    omega

theorem flagsSet_setApp {pc : AppPC D} (h : s.FlagsSet) (hiss : s'.issued = s.issued)
    (happ : s'.app = Function.update s.app t pc)
    (hrel : ∀ r, pc.relies = some r → (s.app t).relies = some r)
    (hfin : s'.finished = s.finished)
    (hc : ∀ v, (s'.voucher v).completed = (s.voucher v).completed) : s'.FlagsSet := by
  intro r hr hlt
  rw [hfin] at hlt
  rw [hc]
  refine h r ?_ hlt
  rcases marked_setApp t pc hr hiss happ with hpc | hr
  · exact Or.inr ⟨t, hrel r hpc⟩
  · exact marked_of_others hr

theorem flagsSet_redeem (hinv : Inv s place done) (h : s.FlagsSet) {ph : RedeemPhase D}
    (ht : s.app t = .redeem ph r out) (hs : redeemStep s t r out ph = some s') : s'.FlagsSet := by
  have hrel : ph.marked = true → (s.app t).relies = some r := by
    intro hm
    rw [ht, AppPC.relies, if_pos hm]
  have hphase : ∀ (ph' : RedeemPhase D) out', ph.marked = true → ∀ r',
      (AppPC.redeem ph' r out').relies = some r' → (s.app t).relies = some r' := by
    intro ph' out' hm r' hr'
    rw [AppPC.relies] at hr'
    split_ifs at hr'
    rw [← hr']
    exact hrel hm
  have hflag : ∀ m : Option (Owner T), ∀ w, (Function.update s.voucher r.v
      { s.voucher r.v with mute := m } w).completed = (s.voucher w).completed :=
    fun m => view_update Voucher.completed (by rfl)
  by_cases hg : ph = .giveBack
  · subst hg
    rw [redeemStep] at hs
    split_ifs at hs
    obtain rfl := Option.some.inj hs
    exact flagsSet_setApp h rfl rfl (fun _ hr => by cases hr) rfl fun _ => rfl
  · cases redeemStep_move hs with
    | next ph' out' hl hret hret' =>
      have hm : ph.marked = true := by
        cases ph with
        | giveBack => exact absurd rfl hg
        | unlock => cases hret
        | ret => cases hret
        | _ => rfl
      exact flagsSet_setApp h rfl rfl (hphase ph' out' hm) rfl fun _ => rfl
    | lock => exact flagsSet_setApp h rfl rfl (hphase .test out rfl) rfl (hflag _)
    | release => exact flagsSet_setApp h rfl rfl (hphase .wait out rfl) rfl (hflag _)
    | putSd sd => exact flagsSet_setApp h rfl rfl (hphase .reset out rfl) rfl fun _ => rfl
    | reset =>
      -- nothing else relies on the flag of this voucher
      intro r' hr' hlt
      have hreq : (s.app t).request = some r := by
        rw [ht]
        rfl
      have hothers : r' ∈ s.issued ∨ ∃ u, u ≠ t ∧ (s.app u).relies = some r' := by
        rcases marked_setApp (s := s) t (.redeem .giveBack r out) hr' rfl rfl with hrel' | hr'
        · cases hrel'
        · exact hr'
      have hne : r'.v ≠ r.v := by
        intro hv
        have hp := hinv.place_redeem hreq
        rcases hothers with hiss | ⟨u, hut, hu⟩
        · have hp' := (hinv.owned (.request r' none) r'.v).mp ⟨rfl, hiss⟩
          rw [hv, hp] at hp'
          cases hp'
        · have hp' := hinv.place_redeem (request_of_relies hu)
          rw [hv, hp, Place.request.injEq] at hp'
          exact hut (Option.some.inj hp'.2).symm
      have hkeep : (Function.update s.voucher r.v { s.voucher r.v with completed := 0 } r'.v).completed =
          (s.voucher r'.v).completed := by
        rw [Function.update_of_ne hne]
      exact hkeep.trans (h r' (marked_of_others hothers) hlt)
    | giveBack => exact absurd rfl hg
    | unlock => exact flagsSet_setApp h rfl rfl (fun _ hr => by cases hr) rfl (hflag _)
    | ret => exact flagsSet_setApp h rfl rfl (fun _ hr => by cases hr) rfl fun _ => rfl

/-- A worker's step completes no request, or is the store of the completed flag. -/
theorem work_completes (hs : step s (.work k st) = some s') :
    (s'.finished = s.finished ∧ ∀ v, (s'.voucher v).completed = (s.voucher v).completed) ∨
      ∃ v, s.worker k = .busy .complete v ∧ s'.worker k = .busy .signal v ∧
        s'.device = s.device ∧
        s'.voucher = Function.update s.voucher v { s.voucher v with completed := 1 } := by
  have hframe := work_frame hs
  have hfin : s'.finished k = s.finished k → s'.finished = s.finished := by
    intro hk
    funext k'
    by_cases hkk : k' = k
    · rw [hkk, hk]
    · obtain ⟨hw, hd⟩ := hframe.others k' hkk
      rw [State.finished, State.finished, hw, hd]
  have hlog : ∀ wpc : WorkerPC D, s'.worker = Function.update s.worker k wpc →
      s'.device = s.device → wpc.logged = (s.worker k).logged → s'.finished k = s.finished k := by
    intro wpc hw hd hl
    rw [State.finished, State.finished, hw, hd, Function.update_self, hl]
  rw [step] at hs
  cases hw : s.worker k with
  | idle =>
    rw [hw] at hs
    cases hq : s.queue k with
    | nil =>
      rw [hq] at hs
      cases hs
    | cons v rest =>
      rw [hq] at hs
      obtain rfl := Option.some.inj hs
      exact Or.inl ⟨hfin (hlog (.busy .lock v) rfl rfl (by rw [hw]; rfl)), fun _ => rfl⟩
  | busy ph v =>
    rw [hw] at hs
    cases ph with
    | lock =>
      simp only [workStep] at hs
      split_ifs at hs
      obtain rfl := Option.some.inj hs
      exact Or.inl ⟨hfin (hlog (.busy .readSd v) rfl rfl (by rw [hw]; rfl)),
        view_update Voucher.completed (by rfl)⟩
    | readSd =>
      obtain rfl := Option.some.inj hs
      exact Or.inl ⟨hfin (hlog (.busy (.device _) v) rfl rfl (by rw [hw]; rfl)), fun _ => rfl⟩
    | device sd =>
      obtain rfl := Option.some.inj hs
      refine Or.inl ⟨hfin ?_, fun _ => rfl⟩
      change (Function.update s.device k (s.device k ++ [(v, sd, st)]) k).length -
        (Function.update s.worker k (.busy (.store st) v) k).logged = _
      rw [Function.update_self, Function.update_self, State.finished, hw, List.length_append]
      rfl
    | store st' =>
      obtain rfl := Option.some.inj hs
      exact Or.inl ⟨hfin (hlog (.busy .complete v) rfl rfl (by rw [hw]; rfl)),
        view_update Voucher.completed (by rfl)⟩
    | complete =>
      obtain rfl := Option.some.inj hs
      exact Or.inr ⟨v, rfl, Function.update_self .., rfl, rfl⟩
    | signal =>
      obtain rfl := Option.some.inj hs
      exact Or.inl ⟨hfin (hlog (.busy .unlock v) rfl rfl (by rw [hw]; rfl)), fun _ => rfl⟩
    | unlock =>
      obtain rfl := Option.some.inj hs
      exact Or.inl ⟨hfin (hlog .idle rfl rfl (by rw [hw]; rfl)),
        view_update Voucher.completed (by rfl)⟩

theorem flagsSet_work (hinv : Inv s place done) (h : s.FlagsSet)
    (hs : step s (.work k st) = some s') : s'.FlagsSet := by
  have hframe := work_frame hs
  have hmark : ∀ r, s'.Marked r → s.Marked r := by
    rintro r (hr | ⟨t, ht⟩)
    · exact Or.inl ((work_issued hs).1 ▸ hr)
    · exact Or.inr ⟨t, by rwa [← hframe.app]⟩
  intro r hr hlt
  rcases work_completes hs with ⟨hfin, hc⟩ | ⟨v, hw, hw', hdev, hvoucher⟩
  · rw [hc]
    exact h r (hmark r hr) (by rwa [← hfin])
  · by_cases hv : r.v = v
    · rw [hvoucher, hv, Function.update_self]
    · rw [hvoucher, Function.update_of_ne hv]
      apply h r (hmark r hr)
      by_cases hk : r.kind = k
      · -- the request just completed is the one of the voucher `v`
        obtain ⟨n, o, hp, hn, -⟩ := hinv.place_worker hw
        obtain ⟨o', hp', -⟩ := hinv.place_marked (hmark r hr)
        have hd := hinv.logged.done_eq k
        rw [hw] at hd
        have hne : r.index ≠ n := fun hri =>
          hv (hinv.recorded.index_unique hp hp' hk hri)
        rw [hk, State.finished, hw', hdev] at hlt
        rw [hinv.finished_eq, hk]
        change r.index < (s.device k).length - 0 at hlt
        change (s.device k).length = done k + 1 at hd
        omega
      · obtain ⟨hwk, hdk⟩ := hframe.others r.kind hk
        rwa [State.finished, hwk, hdk] at hlt

theorem flagsSet_step (hinv : Inv s place done) (h : s.FlagsSet) {a : Action T D}
    (hs : step s a = some s') : s'.FlagsSet := by
  cases a with
  | submit t k b sd =>
    rw [step] at hs
    split at hs
    · rename_i ht
      obtain rfl := Option.some.inj hs
      exact flagsSet_setApp h rfl rfl (fun _ hr => by cases hr) rfl fun _ => rfl
    · cases hs
  | redeem t r =>
    rw [step] at hs
    split at hs
    · split_ifs at hs with hr
      obtain rfl := Option.some.inj hs
      intro r' hr' hlt
      refine h r' ?_ hlt
      rcases hr' with hiss | ⟨u, hu⟩
      · exact Or.inl (List.mem_of_mem_erase hiss)
      · change (Function.update s.app t (.redeem .lock r none) u).relies = some r' at hu
        by_cases hut : u = t
        · subst hut
          rw [Function.update_self] at hu
          obtain rfl := Option.some.inj hu
          exact Or.inl hr
        · rw [Function.update_of_ne hut] at hu
          exact Or.inr ⟨u, hu⟩
    · cases hs
  | work k st => exact flagsSet_work hinv h hs
  | app t =>
    change appStep s t = some s' at hs
    cases ht : s.app t with
    | idle =>
      rw [appStep, ht] at hs
      cases hs
    | take k b sd =>
      rw [appStep, ht] at hs
      cases hbb : s.vouchBB with
      | nil =>
        rw [hbb] at hs
        cases hs
      | cons v rest =>
        rw [hbb] at hs
        obtain rfl := Option.some.inj hs
        exact flagsSet_setApp h rfl rfl (fun _ hr => by cases hr) rfl fun _ => rfl
    | submit ph k b sd v =>
      rw [appStep, ht] at hs
      exact flagsSet_submit hinv h ht hs
    | giveBack v =>
      have hok := hinv.app_ok t
      rw [ht] at hok
      exact hok.elim
    | redeem ph r out =>
      rw [appStep, ht] at hs
      exact flagsSet_redeem hinv h ht hs

/-- The steps that a call has to go once its request is completed. -/
def RedeemPhase.left : RedeemPhase D → ℕ
  | .release => 15
  | .wait => 14
  | .lock => 13
  | .test => 12
  | .checkStatus => 11
  | .checkWrite => 10
  | .storeSd => 9
  | .checkRead => 8
  | .readSd => 7
  | .putSd _ => 6
  | .reset => 5
  | .giveBack => 4
  | .unlock => 3
  | .ret => 2

/-- Only the test of the completed flag takes a call back. -/
theorem redeemStep_left {ph : RedeemPhase D} (hs : redeemStep s t r out ph = some s') :
    s'.app t = .idle ∨ ∃ ph' out', s'.app t = .redeem ph' r out' ∧
      (ph'.left < ph.left ∨ ph = .test ∧ ph' = .release ∧ (s.voucher r.v).completed ≠ 1) := by
  have hnext : ∀ (x : State T D) ph' out', s' = x.setApp t (.redeem ph' r out') →
      ph'.left < ph.left → s'.app t = .idle ∨ ∃ ph' out', s'.app t = .redeem ph' r out' ∧
        (ph'.left < ph.left ∨ ph = .test ∧ ph' = .release ∧ (s.voucher r.v).completed ≠ 1) := by
    rintro x ph' out' rfl hlt
    exact Or.inr ⟨ph', out', State.setApp_self .., Or.inl hlt⟩
  cases ph with
  | lock =>
    rw [redeemStep] at hs
    split_ifs at hs
    obtain rfl := Option.some.inj hs
    exact hnext _ .test out rfl (Nat.le_of_ble_eq_true rfl)
  | test =>
    rw [redeemStep] at hs
    split_ifs at hs with hc
    · obtain rfl := Option.some.inj hs
      exact Or.inr ⟨.release, out, State.setApp_self .., Or.inr ⟨rfl, rfl, hc⟩⟩
    · obtain rfl := Option.some.inj hs
      exact hnext _ .checkStatus out rfl (Nat.le_of_ble_eq_true rfl)
  | release =>
    obtain rfl := Option.some.inj hs
    exact hnext _ .wait out rfl (Nat.le_of_ble_eq_true rfl)
  | wait =>
    obtain rfl := Option.some.inj hs
    exact hnext _ .lock out rfl (Nat.le_of_ble_eq_true rfl)
  | checkStatus =>
    rw [redeemStep] at hs
    split_ifs at hs
    · obtain rfl := Option.some.inj hs
      exact hnext _ .checkWrite out rfl (Nat.le_of_ble_eq_true rfl)
    · obtain rfl := Option.some.inj hs
      exact hnext _ .checkRead out rfl (Nat.le_of_ble_eq_true rfl)
  | checkWrite =>
    rw [redeemStep] at hs
    split_ifs at hs
    · obtain rfl := Option.some.inj hs
      exact hnext _ .storeSd out rfl (Nat.le_of_ble_eq_true rfl)
    · obtain rfl := Option.some.inj hs
      exact hnext _ .checkRead out rfl (Nat.le_of_ble_eq_true rfl)
  | storeSd =>
    obtain rfl := Option.some.inj hs
    exact hnext _ .checkRead _ rfl (Nat.le_of_ble_eq_true rfl)
  | checkRead =>
    rw [redeemStep] at hs
    split_ifs at hs
    · obtain rfl := Option.some.inj hs
      exact hnext _ .readSd out rfl (Nat.le_of_ble_eq_true rfl)
    · obtain rfl := Option.some.inj hs
      exact hnext _ .reset out rfl (Nat.le_of_ble_eq_true rfl)
  | readSd =>
    obtain rfl := Option.some.inj hs
    exact hnext _ (.putSd _) out rfl (Nat.lt_succ_self 6)
  | putSd sd =>
    obtain rfl := Option.some.inj hs
    exact hnext _ .reset out rfl (Nat.lt_succ_self 5)
  | reset =>
    obtain rfl := Option.some.inj hs
    exact hnext _ .giveBack out rfl (Nat.le_of_ble_eq_true rfl)
  | giveBack =>
    rw [redeemStep] at hs
    split_ifs at hs
    obtain rfl := Option.some.inj hs
    exact hnext _ .unlock out rfl (Nat.le_of_ble_eq_true rfl)
  | unlock =>
    obtain rfl := Option.some.inj hs
    exact hnext _ .ret out rfl (Nat.le_of_ble_eq_true rfl)
  | ret =>
    obtain rfl := Option.some.inj hs
    exact Or.inl (State.setApp_self ..)

theorem app_redeem {ph' : RedeemPhase D} (hs : appStep s t = some s')
    (ht' : s'.app t = .redeem ph' r out) : ∃ ph out', s.app t = .redeem ph r out' ∧
      (ph'.left < ph.left ∨ ph = .test ∧ ph' = .release ∧ (s.voucher r.v).completed ≠ 1) := by
  cases ht : s.app t with
  | idle =>
    rw [appStep, ht] at hs
    cases hs
  | take k b sd =>
    rw [appStep, ht] at hs
    cases hbb : s.vouchBB with
    | nil =>
      rw [hbb] at hs
      cases hs
    | cons v rest =>
      rw [hbb] at hs
      obtain rfl := Option.some.inj hs
      rw [State.setApp_self] at ht'
      cases ht'
  | submit ph k b sd v =>
    rw [appStep, ht] at hs
    cases ph with
    | enqueue =>
      simp only [submitStep] at hs
      split_ifs at hs
      all_goals
        obtain rfl := Option.some.inj hs
        rw [State.setApp_self] at ht'
        cases ht'
    | _ =>
      obtain rfl := Option.some.inj hs
      rw [State.setApp_self] at ht'
      cases ht'
  | giveBack v =>
    rw [appStep, ht] at hs
    simp only at hs
    split_ifs at hs
    all_goals
      obtain rfl := Option.some.inj hs
      rw [State.setApp_self] at ht'
      cases ht'
  | redeem ph r' out' =>
    rw [appStep, ht] at hs
    rcases redeemStep_left hs with hidle | ⟨ph'', out'', ht'', hleft⟩
    · cases ht'.symm.trans hidle
    · obtain ⟨rfl, rfl, rfl⟩ := AppPC.redeem.inj (ht'.symm.trans ht'')
      exact ⟨ph, out', rfl, hleft⟩

end CIS415.DiskDriver
