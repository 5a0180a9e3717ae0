import CIS415.DiskDriverRedeem
import CIS415.Lib.History

/-!
# The driver as a concurrent object

To its application the driver is a disk that many threads use at once: an operation is called when a
submit function enqueues it, takes effect when the worker calls `write_sector` or `read_sector`, and
returns when the call of `redeem_voucher` for its voucher does. Here the device is any object that
answers one operation after the other.
-/

namespace CIS415.DiskDriver

open History System

variable {T D X : Type} [DecidableEq T] {s s' : State T D} {place : VoucherPtr → Place T}
  {done : Kind → ℕ} {es : List (Event (Request × Option D) ℤ)}

/-- What a step means for the application; an operation is its request with its descriptor. -/
def event (s : State T D) : Action T D → Option (Event (Request × Option D) ℤ)
  | .app t =>
    match s.app t with
    | .submit .enqueue k _ sd v =>
      if (s.queue k).length < size then some (.call (⟨v, k, (s.accepted k).length⟩, sd)) else none
    | .redeem .ret r _ =>
      (s.accepted r.kind)[r.index]?.map fun x => .ret (r, x.2) (s.voucher r.v).status
    | _ => none
  | .work k status =>
    match s.worker k with
    | .busy (.device sd) v => some (.effect (⟨v, k, (s.device k).length⟩, sd) status)
    | _ => none
  | _ => none

inductive Marked (s s' : State T D) : Option (Event (Request × Option D) ℤ) → Prop where
  | silent (haccepted : s'.accepted = s.accepted) (hdevice : s'.device = s.device)
      (hredeemed : s'.redeemed = s.redeemed) : Marked s s' none
  | call (k : Kind) (v : VoucherPtr) (sd : Option D)
      (haccepted : s'.accepted = Function.update s.accepted k (s.accepted k ++ [(v, sd)]))
      (hdevice : s'.device = s.device) (hredeemed : s'.redeemed = s.redeemed) :
      Marked s s' (some (.call (⟨v, k, (s.accepted k).length⟩, sd)))
  | effect (k : Kind) (v : VoucherPtr) (sd : Option D) (st : ℤ)
      (hw : s.worker k = .busy (.device sd) v) (haccepted : s'.accepted = s.accepted)
      (hdevice : s'.device = Function.update s.device k (s.device k ++ [(v, sd, st)]))
      (hredeemed : s'.redeemed = s.redeemed) :
      Marked s s' (some (.effect (⟨v, k, (s.device k).length⟩, sd) st))
  | ret (t : T) (r : Request) (out : Option (Option D)) (ht : s.app t = .redeem .ret r out)
      (haccepted : s'.accepted = s.accepted) (hdevice : s'.device = s.device)
      (hredeemed : s'.redeemed = s.redeemed ++ [(r, (s.voucher r.v).status, out)]) :
      Marked s s' ((s.accepted r.kind)[r.index]?.map fun x => .ret (r, x.2) (s.voucher r.v).status)

theorem marked_app {t : T} (hs : appStep s t = some s') : Marked s s' (event s (.app t)) := by
  rw [event]
  rw [appStep] at hs
  split at hs
  · cases hs
  · rename_i ht
    rw [ht]
    split at hs
    · cases hs
    · obtain rfl := Option.some.inj hs
      exact .silent rfl rfl rfl
  · rename_i ph k b sd v ht
    rw [ht]
    cases ph with
    | enqueue =>
      rw [submitStep] at hs
      split_ifs at hs with hroom
      · obtain rfl := Option.some.inj hs
        dsimp only
        rw [if_pos hroom]
        exact .call k v sd rfl rfl rfl
      · obtain rfl := Option.some.inj hs
        dsimp only
        rw [if_neg hroom]
        exact .silent rfl rfl rfl
    | _ =>
      obtain rfl := Option.some.inj hs
      exact .silent rfl rfl rfl
  · rename_i ht
    rw [ht]
    split_ifs at hs
    · obtain rfl := Option.some.inj hs
      exact .silent rfl rfl rfl
    · obtain rfl := Option.some.inj hs
      exact .silent rfl rfl rfl
  · rename_i ph r out ht
    rw [ht]
    cases redeemStep_move hs with
    | ret => exact .ret t r out ht rfl rfl rfl
    | next ph' out' hlocked hreturned =>
      cases ph with
      | ret => cases hreturned
      | _ => exact .silent rfl rfl rfl
    | _ => exact .silent rfl rfl rfl

omit [DecidableEq T] in
theorem marked_work {k : Kind} {st : ℤ} {ph : WorkPhase D} {v : VoucherPtr}
    (hw : s.worker k = .busy ph v) (hs : workStep s k st v ph = some s') :
    Marked s s' (event s (.work k st)) := by
  rw [event, hw]
  cases ph with
  | lock =>
    rw [workStep] at hs
    split_ifs at hs
    obtain rfl := Option.some.inj hs
    exact .silent rfl rfl rfl
  | device sd =>
    obtain rfl := Option.some.inj hs
    exact .effect k v sd st hw rfl rfl rfl
  | _ =>
    obtain rfl := Option.some.inj hs
    exact .silent rfl rfl rfl

theorem marked_step {a : Action T D} (hs : step s a = some s') : Marked s s' (event s a) := by
  cases a with
  | submit t k b sd =>
    rw [step] at hs
    split at hs
    · obtain rfl := Option.some.inj hs
      exact .silent rfl rfl rfl
    · cases hs
  | redeem t r =>
    rw [step] at hs
    split at hs
    · split_ifs at hs
      obtain rfl := Option.some.inj hs
      exact .silent rfl rfl rfl
    · cases hs
  | app t => exact marked_app hs
  | work k st =>
    rw [step] at hs
    split at hs
    · rename_i hw
      split at hs
      · cases hs
      · obtain rfl := Option.some.inj hs
        rw [event, hw]
        exact .silent rfl rfl rfl
    · rename_i ph v hw
      exact marked_work hw hs

structure Chronicle (s : State T D) (es : List (Event (Request × Option D) ℤ)) : Prop where
  wellFormed : WellFormed es
  call : ∀ r sd, .call (r, sd) ∈ es ↔ (s.accepted r.kind)[r.index]? = some (r.v, sd)
  effect : ∀ r sd st, .effect (r, sd) st ∈ es ↔ (s.device r.kind)[r.index]? = some (r.v, sd, st)
  ret : ∀ x ∈ s.redeemed, ∃ sd, .ret (x.1, sd) x.2.1 ∈ es

omit [DecidableEq T] in
theorem chronicle_init : Chronicle (initDiskDriver : State T D) [] where
  wellFormed := wellFormed_nil
  call r sd := by simp [initDiskDriver]
  effect r sd st := by simp [initDiskDriver]
  ret x hx := by cases hx

theorem getElem?_update_append {E : Type} (log : Kind → List E) (k k' : Kind) (x y : E) (n : ℕ) :
    (Function.update log k (log k ++ [x]) k')[n]? = some y ↔
      (log k')[n]? = some y ∨ k' = k ∧ n = (log k).length ∧ y = x := by
  by_cases hk : k' = k
  · subst hk
    rw [Function.update_self, List.getElem?_append]
    split
    · rename_i hlt
      exact ⟨Or.inl, fun h => h.resolve_right fun heq => by omega⟩
    · rename_i hge
      rw [List.getElem?_eq_none (by omega : (log k').length ≤ n), List.getElem?_singleton]
      split
      · rename_i h0
        constructor
        · intro heq
          exact Or.inr ⟨rfl, by omega, (Option.some.inj heq).symm⟩
        · rintro (h | ⟨-, -, rfl⟩)
          · cases h
          · rfl
      · rename_i h0
        constructor
        · intro h
          cases h
        · rintro (h | ⟨-, rfl, -⟩)
          · cases h
          · omega
  · rw [Function.update_of_ne hk]
    exact ⟨Or.inl, fun h => h.resolve_right fun heq => hk heq.1⟩

omit [DecidableEq T] in
/-- A request that is at the device was accepted, and has not been executed. -/
theorem Inv.at_device (h : Inv s place done) {k : Kind} {sd : Option D} {v : VoucherPtr}
    (hw : s.worker k = .busy (.device sd) v) :
    (s.accepted k)[(s.device k).length]? = some (v, sd) := by
  obtain ⟨n, o, hplace, hn, -, hsd⟩ := h.place_worker hw
  have hlen := h.logged.done_eq k
  rw [hw] at hlen
  have hdone : (s.device k).length = n := hlen.trans hn.symm
  rw [hdone, (h.recorded.fields v _ o hplace).1, hsd]

omit [DecidableEq T] in
/-- A redemption that returns was executed, with the status that it returns. -/
theorem Faithful.at_return (h : Faithful s) (hinv : Inv s place done) {t : T} {r : Request}
    {out : Option (Option D)} (ht : s.app t = .redeem .ret r out) :
    ∃ sd, (s.accepted r.kind)[r.index]? = some (r.v, sd) ∧
      (s.device r.kind)[r.index]? = some (r.v, sd, (s.voucher r.v).status) := by
  obtain ⟨sd, hsd⟩ := h.returned t .ret r out ht rfl
  exact ⟨sd, hinv.logged.accepted_of_device hsd, hsd⟩

theorem Chronicle.step (h : Chronicle s es) (hinv : Inv s place done) (hf : Faithful s)
    {a : Action T D} (hs : step s a = some s') : Chronicle s' (es ++ (event s a).toList) := by
  have hmark := marked_step hs
  generalize hev : event s a = ev at hmark
  cases hmark with
  | silent haccepted hdevice hredeemed =>
    rw [Option.toList_none, List.append_nil]
    constructor
    · exact h.wellFormed
    · rw [haccepted]
      exact h.call
    · rw [hdevice]
      exact h.effect
    · rw [hredeemed]
      exact h.ret
  | call k v sd haccepted hdevice hredeemed =>
    have hnew : .call (⟨v, k, (s.accepted k).length⟩, sd) ∉ es := by
      rw [h.call, List.getElem?_eq_none le_rfl]
      intro heq
      cases heq
    constructor
    · exact h.wellFormed.snoc hnew
    · intro r sd'
      rw [haccepted, getElem?_update_append, ← h.call, Option.toList_some, List.mem_append,
        List.mem_singleton]
      refine or_congr_right ?_
      constructor
      · intro heq
        cases heq
        exact ⟨rfl, rfl, rfl⟩
      · rintro ⟨hk, hn, hx⟩
        cases r
        cases hx
        rw [← hn, ← hk]
    · intro r sd' st
      rw [hdevice, ← h.effect, Option.toList_some, List.mem_append, List.mem_singleton]
      exact or_iff_left fun heq => by cases heq
    · rw [hredeemed]
      intro x hx
      obtain ⟨sd', hsd'⟩ := h.ret x hx
      exact ⟨sd', List.mem_append_left _ hsd'⟩
  | effect k v sd st hw haccepted hdevice hredeemed =>
    have hcall : .call (⟨v, k, (s.device k).length⟩, sd) ∈ es :=
      (h.call _ _).mpr (hinv.at_device hw)
    have hnew : ∀ st', .effect (⟨v, k, (s.device k).length⟩, sd) st' ∉ es := by
      intro st'
      rw [h.effect, List.getElem?_eq_none le_rfl]
      intro heq
      cases heq
    constructor
    · exact h.wellFormed.snoc ⟨hcall, hnew⟩
    · intro r sd'
      rw [haccepted, ← h.call, Option.toList_some, List.mem_append, List.mem_singleton]
      exact or_iff_left fun heq => by cases heq
    · intro r sd' st'
      rw [hdevice, getElem?_update_append, ← h.effect, Option.toList_some, List.mem_append,
        List.mem_singleton]
      refine or_congr_right ?_
      constructor
      · intro heq
        cases heq
        exact ⟨rfl, rfl, rfl⟩
      · rintro ⟨hk, hn, hx⟩
        cases r
        cases hx
        rw [← hn, ← hk]
    · rw [hredeemed]
      intro x hx
      obtain ⟨sd', hsd'⟩ := h.ret x hx
      exact ⟨sd', List.mem_append_left _ hsd'⟩
  | ret t r out ht haccepted hdevice hredeemed =>
    obtain ⟨sd, hacc, hdev⟩ := hf.at_return hinv ht
    rw [hacc, Option.map_some, Option.toList_some]
    constructor
    · exact h.wellFormed.snoc ((h.effect _ _ _).mpr hdev)
    · intro r' sd'
      rw [haccepted, ← h.call, List.mem_append, List.mem_singleton]
      exact or_iff_left fun heq => by cases heq
    · intro r' sd' st'
      rw [hdevice, ← h.effect, List.mem_append, List.mem_singleton]
      exact or_iff_left fun heq => by cases heq
    · rw [hredeemed]
      intro x hx
      rcases List.mem_append.mp hx with hx | hx
      · obtain ⟨sd', hsd'⟩ := h.ret x hx
        exact ⟨sd', List.mem_append_left _ hsd'⟩
      · obtain rfl := List.mem_singleton.mp hx
        exact ⟨sd, List.mem_append_right _ List.mem_cons_self⟩

/-- What the device does with an operation: it knows neither the voucher nor the place in the queue. -/
def onDevice (disk : X → Kind → Option D → ℤ × X) (x : X) (o : Request × Option D) : ℤ × X :=
  disk x o.1.kind o.2

def drive (disk : X → Kind → Option D → ℤ × X) (p : State T D × X) (a : Action T D) :
    Option (State T D × X) :=
  withObject step event (onDevice disk) p a

/-- What the application sees of a run, and when the operations took effect. -/
def history (disk : X → Kind → Option D → ℤ × X) (x : X) (as : List (Action T D)) :
    List (Event (Request × Option D) ℤ) :=
  observe (drive disk) (fun p => event p.1) (initDiskDriver, x) as

/-- For any device that answers operations one after the other, every run of the driver in which no
worker stores another status in a voucher between its return and the last read of its redeemer
linearizes: the operations that took effect, in one order, are answered by the device alone as they
were in the run, each redemption returns the answer to its own operation, and an operation that was
redeemed before another was accepted comes before it. -/
theorem driver_linearizes {disk : X → Kind → Option D → ℤ × X} {x y : X} {as : List (Action T D)}
    (hg : Guarded (drive disk) (fun p => Undisturbed p.1) (initDiskDriver, x) as)
    (h : exec (drive disk) (initDiskDriver, x) as = some (s, y)) :
    (∃ ops, Linearizes (onDevice disk) x y (history disk x as) ops) ∧
      ∀ z ∈ s.redeemed, ∃ sd, .ret (z.1, sd) z.2.1 ∈ history disk x as := by
  have hstep : ∀ (p : State T D × X) es a q,
      ((∃ place done, Inv p.1 place done) ∧ Faithful p.1 ∧ Chronicle p.1 es) → Undisturbed p.1 a →
      drive disk p a = some q →
      (∃ place done, Inv q.1 place done) ∧ Faithful q.1 ∧
        Chronicle q.1 (es ++ (event p.1 a).toList) := by
    rintro p es a q ⟨⟨place, done, hinv⟩, hfaith, hchron⟩ hu hs
    have hdriver := withObject_step hs
    exact ⟨hinv.step hdriver, hfaith.step hinv hu hdriver, hchron.step hinv hfaith hdriver⟩
  obtain ⟨-, -, hchron⟩ := observe_guarded_invariant
    (I := fun p es => (∃ place done, Inv p.1 place done) ∧ Faithful p.1 ∧ Chronicle p.1 es) hstep
    ⟨⟨_, _, inv_init⟩, faithful_init, chronicle_init⟩ hg h
  exact ⟨⟨_, hchron.wellFormed.linearizes (withObject_legal h)⟩, hchron.ret⟩

/-- A device that counts the operations it is asked for, and refuses every second one. -/
def alternating (n : ℕ) (_ : Kind) (_ : Option Bool) : ℤ × ℕ :=
  (((n + 1) % 2 : ℕ), n + 1)

/-- One thread writes and redeems; then another submits a read. -/
def writeThenRead : List (Action Bool Bool) :=
  .submit false .write true (some true) :: List.replicate 5 (.app false) ++
    List.replicate 8 (.work .write 1) ++ .redeem false ⟨⟨0, vSize_pos⟩, .write, 0⟩ ::
    List.replicate 10 (.app false) ++ .submit true .read false none ::
    List.replicate 5 (.app true) ++ List.replicate 8 (.work .read 0)

theorem driver_linearizes_two : ∃ s y,
    exec (drive alternating) (initDiskDriver, 0) writeThenRead = some (s, y) ∧ s.redeemed ≠ [] ∧
    (∃ ops, Linearizes (onDevice alternating) 0 y (history alternating 0 writeThenRead) ops) ∧
      ∀ z ∈ s.redeemed, ∃ sd, .ret (z.1, sd) z.2.1 ∈ history alternating 0 writeThenRead := by
  have hred : (exec (drive alternating) (initDiskDriver, 0) writeThenRead).map
      (fun p => p.1.redeemed) = some [(⟨0, .write, 0⟩, 1, some (some true))] := by
    decide +kernel
  obtain ⟨⟨s, y⟩, h, hred⟩ := Option.map_eq_some_iff.mp hred
  exact ⟨s, y, h, by simp [show s.redeemed = _ from hred],
    driver_linearizes (by decide +kernel) h⟩

end CIS415.DiskDriver
