import CIS415.Lib.Heap
import Mathlib.Algebra.Order.Group.Multiset

/-!
# Programs that acquire and release resources

A resource is what an allocation or an open file is to a program. It is named by the number of
resources acquired before it, so no name is given out twice. To use or to release what is not held is
a misuse. A specification says what part of the resources held a program takes up and what it holds in
its place when it is done; the rest stays as it is, so what a program leaks or releases twice shows.
-/

namespace Resources

open Pointer

/-- The number of resources acquired so far, those that are held, and the outcomes of the allocations
to come. -/
structure World where
  next : ℕ
  live : Multiset ℕ
  sched : Schedule

/-- A run misuses a resource, or stops for a reason of its own. -/
inductive Fault (C : Type) where
  | misuse
  | stop (c : C)

abbrev Prog (C : Type) := StateT World (Except (Fault C))

variable {C α β : Type}

def stop (c : C) : Prog C α := fun _ => .error (.stop c)

def need (c : C) : Option α → Prog C α
  | none => stop c
  | some a => pure a

def outcome : Prog C Bool := fun w => .ok (w.sched 0, { w with sched := w.sched.rest })

def acquire : Prog C ℕ := fun w => .ok (w.next, { w with next := w.next + 1, live := w.next ::ₘ w.live })

def allocate : Prog C (Option ℕ) := do
  let ok ← outcome
  if ok then do
    let n ← acquire
    pure (some n)
  else pure none

def use (n : ℕ) : Prog C Unit := fun w => if n ∈ w.live then .ok ((), w) else .error .misuse

def release (n : ℕ) : Prog C Unit := fun w =>
  if n ∈ w.live then .ok ((), { w with live := w.live.erase n }) else .error .misuse

def useAll : List ℕ → Prog C Unit
  | [] => pure ()
  | n :: ns => do
    use n
    useAll ns

def releaseAll : List ℕ → Prog C Unit
  | [] => pure ()
  | n :: ns => do
    release n
    releaseAll ns

/-- The result of a run is one that the specification allows, where `fr` is held beside. -/
def Meets (safe : C → Prop) (Q : α → Multiset ℕ → Prop) (fr : Multiset ℕ) :
    Except (Fault C) (α × World) → Prop
  | .ok (a, w) => ∃ ys, Q a ys ∧ w.live = ys + fr
  | .error .misuse => False
  | .error (.stop c) => safe c

/-- Where the program holds `xs`, and whatever else, it misuses nothing and stops only for a reason
that is safe; when it is done, it holds in the place of `xs` what `Q` says of its result. -/
def Spec (safe : C → Prop) (xs : Multiset ℕ) (p : Prog C α) (Q : α → Multiset ℕ → Prop) : Prop :=
  ∀ w fr, w.live = xs + fr → Meets safe Q fr (p.run w)

variable {safe : C → Prop} {xs : Multiset ℕ} {p : Prog C α} {f : α → Prog C β}
  {Q Q' : α → Multiset ℕ → Prop} {R : β → Multiset ℕ → Prop} {n : ℕ}

theorem Meets.imp {fr fr' : Multiset ℕ} {r : Except (Fault C) (α × World)} (h : Meets safe Q fr r)
    (hQ : ∀ a ys, Q a ys → ∃ us, Q' a us ∧ ys + fr = us + fr') : Meets safe Q' fr' r := by
  match r, h with
  | .ok (a, w), ⟨ys, ha, hw⟩ =>
    obtain ⟨us, ha', heq⟩ := hQ a ys ha
    exact ⟨us, ha', hw.trans heq⟩
  | .error (.stop c), h => exact h

theorem Spec.pure {a : α} (h : Q a xs) : Spec safe xs (pure a) Q :=
  fun _ _ hw => ⟨xs, h, hw⟩

theorem Spec.bind (hp : Spec safe xs p Q) (hf : ∀ a ys, Q a ys → Spec safe ys (f a) R) :
    Spec safe xs (p >>= f) R := by
  intro w fr hw
  have hrun := hp w fr hw
  rw [StateT.run_bind]
  match p.run w, hrun with
  | .ok (a, w'), ⟨ys, ha, hw'⟩ => exact hf a ys ha w' fr hw'
  | .error (.stop c), h => exact h

theorem Spec.mono (hp : Spec safe xs p Q) (h : ∀ a ys, Q a ys → Q' a ys) : Spec safe xs p Q' :=
  fun w fr hw => (hp w fr hw).imp fun a ys ha => ⟨ys, h a ys ha, rfl⟩

/-- What a program does not know of, it keeps. -/
theorem Spec.frame (hp : Spec safe xs p Q) (zs : Multiset ℕ) :
    Spec safe (xs + zs) p fun a ys => ∃ us, Q a us ∧ ys = us + zs := by
  intro w fr hw
  refine (hp w (zs + fr) (by rw [hw, add_assoc])).imp fun a us ha => ?_
  exact ⟨us + zs, ⟨us, ha, rfl⟩, (add_assoc us zs fr).symm⟩

theorem Spec.stop {c : C} (h : safe c) : Spec safe xs (stop c : Prog C α) Q :=
  fun _ _ _ => h

theorem Spec.need {c : C} {a : Option α} (hsome : ∀ b, a = some b → Q b xs)
    (hnone : a = none → safe c) : Spec safe xs (need c a) Q := by
  cases a with
  | none => exact Spec.stop (hnone rfl)
  | some b => exact Spec.pure (hsome b rfl)

theorem need_some (c : C) (a : α) (k : α → Prog C β) : Resources.need c (some a) >>= k = k a :=
  pure_bind a k

theorem Spec.need_bind {c : C} {a : Option α} {b : α} (ha : a = some b)
    (h : Spec safe xs (f b) R) : Spec safe xs (Resources.need c a >>= f) R := by
  rwa [ha, need_some]

theorem Spec.acquire : Spec safe xs acquire fun n ys => ys = n ::ₘ xs := by
  intro w fr hw
  refine ⟨w.next ::ₘ xs, rfl, ?_⟩
  change w.next ::ₘ w.live = _
  rw [hw, Multiset.cons_add]

def handed : Option ℕ → Multiset ℕ
  | none => 0
  | some n => {n}

theorem Spec.outcome : Spec safe xs outcome fun _ ys => ys = xs :=
  fun _ _ hw => ⟨xs, rfl, hw⟩

theorem Spec.allocate : Spec safe xs allocate fun a ys => ys = handed a + xs := by
  refine Spec.outcome.bind ?_
  rintro ok _ rfl
  cases ok with
  | true =>
    refine Spec.acquire.bind ?_
    rintro n _ rfl
    exact Spec.pure rfl
  | false => exact Spec.pure (zero_add _).symm

theorem Spec.use (h : n ∈ xs) : Spec safe xs (use n) fun _ ys => ys = xs := by
  intro w fr hw
  have hmem : n ∈ w.live := by
    rw [hw]
    exact Multiset.mem_add.mpr (Or.inl h)
  have hrun : (Resources.use n).run w = (Except.ok ((), w) : Except (Fault C) _) := if_pos hmem
  rw [hrun]
  exact ⟨xs, rfl, hw⟩

theorem Spec.release : Spec safe (n ::ₘ xs) (release n) fun _ ys => ys = xs := by
  intro w fr hw
  have hmem : n ∈ w.live := by
    rw [hw]
    exact Multiset.mem_add.mpr (Or.inl (Multiset.mem_cons_self n xs))
  have hrun : (Resources.release n).run w =
      (Except.ok ((), { w with live := w.live.erase n }) : Except (Fault C) _) := if_pos hmem
  rw [hrun]
  refine ⟨xs, rfl, ?_⟩
  change w.live.erase n = _
  rw [hw, Multiset.cons_add, Multiset.erase_cons_head]

theorem Spec.useAll {ns : List ℕ} (h : ∀ n ∈ ns, n ∈ xs) :
    Spec safe xs (useAll ns) fun _ ys => ys = xs := by
  induction ns with
  | nil => exact Spec.pure rfl
  | cons n ns ih =>
    refine (Spec.use (h n List.mem_cons_self)).bind ?_
    rintro _ _ rfl
    exact ih fun m hm => h m (List.mem_cons_of_mem n hm)

theorem Spec.releaseAll (ns : List ℕ) : Spec safe (↑ns + xs) (releaseAll ns) fun _ ys => ys = xs := by
  induction ns with
  | nil => exact Spec.pure (zero_add xs)
  | cons n ns ih =>
    rw [← Multiset.cons_coe, Multiset.cons_add]
    refine Spec.release.bind ?_
    rintro _ _ rfl
    exact ih

/-- The run ended holding nothing, or it stopped for a reason that is safe. -/
def Released (safe : C → Prop) : Except (Fault C) (α × World) → Prop
  | .ok (_, w) => w.live = 0
  | .error .misuse => False
  | .error (.stop c) => safe c

/-- A program that starts with nothing and ends with nothing releases all it acquires. -/
theorem Spec.released (hp : Spec safe 0 p fun _ ys => ys = 0) {w : World} (hw : w.live = 0) :
    Released safe (p.run w) := by
  have hrun := hp w 0 (by rw [hw, add_zero])
  match p.run w, hrun with
  | .ok (a, w'), ⟨ys, hys, hw'⟩ => exact (hw'.trans (add_zero ys)).trans hys
  | .error (.stop c), h => exact h

/-- A program that has no safe reason to stop comes to an end. -/
theorem Spec.ends (hp : Spec safe xs p Q) (hsafe : ∀ c, ¬ safe c) {w : World} (hw : w.live = xs) :
    ∃ a w', p.run w = .ok (a, w') ∧ Q a w'.live := by
  have hrun := hp w 0 (by rw [hw, add_zero])
  match p.run w, hrun with
  | .ok (a, w'), ⟨ys, hys, hw'⟩ =>
    rw [add_zero] at hw'
    exact ⟨a, w', rfl, hw' ▸ hys⟩
  | .error (.stop c), h => exact absurd h (hsafe c)

/-- A run that ended gives what `q` gives, up to `rel`; where it stopped for a reason that is safe, `q`
gives nothing. -/
def Agrees (safe : C → Prop) (rel : α → β → Prop) (q : Option β) :
    Except (Fault C) (α × World) → Prop
  | .ok (a, w) => (∃ b, q = some b ∧ rel a b) ∧ w.sched = Schedule.always
  | .error .misuse => True
  | .error (.stop c) => safe c → q = none

/-- Where all allocations succeed, `q` does what the program does. -/
def Forgets (safe : C → Prop) (rel : α → β → Prop) (p : Prog C α) (q : Option β) : Prop :=
  ∀ w, w.sched = Schedule.always → Agrees safe rel q (p.run w)

/-- The run ended with the outcomes `sched` to come, or it did not stop for a reason that is safe. -/
def Keeps (safe : C → Prop) (sched : Schedule) : Except (Fault C) (α × World) → Prop
  | .ok (_, w) => w.sched = sched
  | .error .misuse => True
  | .error (.stop c) => ¬ safe c

/-- The program leaves the outcomes of allocations alone, and it has no safe reason to stop. -/
def Silent (safe : C → Prop) (p : Prog C α) : Prop :=
  ∀ w, Keeps safe w.sched (p.run w)

variable {γ δ : Type} {rel : α → β → Prop} {rel' : γ → δ → Prop} {k : α → Prog C γ}
  {k' : β → Option δ} {q : Option β} {q' : Option δ}

theorem Forgets.pure {a : α} {b : β} (h : rel a b) : Forgets safe rel (pure a) (some b) :=
  fun _ hw => ⟨⟨b, rfl, h⟩, hw⟩

theorem Forgets.bind (hp : Forgets safe rel p q)
    (hk : ∀ a b, rel a b → Forgets safe rel' (k a) (k' b)) :
    Forgets safe rel' (p >>= k) (q >>= k') := by
  intro w hw
  have hrun := hp w hw
  rw [StateT.run_bind]
  match p.run w, hrun with
  | .ok (a, u), ⟨⟨b, hq, hab⟩, hu⟩ =>
    rw [hq]
    exact hk a b hab u hu
  | .error .misuse, _ => trivial
  | .error (.stop c), h =>
    intro hc
    rw [h hc]
    rfl

theorem Forgets.need {c : C} {a : Option α} (hsome : ∀ b, a = some b → ∃ b', q = some b' ∧ rel b b')
    (hnone : a = none → safe c → q = none) : Forgets safe rel (need c a) q := by
  intro w hw
  cases a with
  | none => exact hnone rfl
  | some b => exact ⟨hsome b rfl, hw⟩

theorem Forgets.need_self (c : C) (a : Option α) : Forgets safe (· = ·) (Resources.need c a) a :=
  .need (fun b hb => ⟨b, hb, rfl⟩) fun h _ => h

theorem Forgets.need_map (c : C) (f : β → α) (q : Option β) :
    Forgets safe (fun a b => a = f b) (Resources.need c (q.map f)) q := by
  refine .need (fun a ha => ?_) fun h _ => Option.map_eq_none_iff.mp h
  obtain ⟨b, hb, heq⟩ := Option.map_eq_some_iff.mp ha
  exact ⟨b, hb, heq.symm⟩

theorem Forgets.stop {c : C} (h : ¬ safe c) : Forgets safe rel (stop c) q :=
  fun _ _ hc => absurd hc h

theorem Forgets.skip (hp : Silent safe p) (hk : ∀ a, Forgets safe rel' (k a) q') :
    Forgets safe rel' (p >>= k) q' := by
  intro w hw
  have hrun := hp w
  rw [StateT.run_bind]
  match p.run w, hrun with
  | .ok (a, u), hu => exact hk a u (hu.trans hw)
  | .error .misuse, _ => trivial
  | .error (.stop c), h => exact fun hc => absurd hc h

theorem Silent.pure (a : α) : Silent safe (pure a) :=
  fun _ => rfl

theorem Silent.bind (hp : Silent safe p) (hk : ∀ a, Silent safe (k a)) : Silent safe (p >>= k) := by
  intro w
  have hrun := hp w
  rw [StateT.run_bind]
  match p.run w, hrun with
  | .ok (a, u), hu =>
    have hrest := hk a u
    rw [show u.sched = w.sched from hu] at hrest
    exact hrest
  | .error .misuse, _ => trivial
  | .error (.stop c), h => exact h

theorem Forgets.after {r : α → Prog C γ} (hp : Forgets safe rel p q) (hr : ∀ a, Silent safe (r a)) :
    Forgets safe rel (p >>= fun a => r a >>= fun _ => Pure.pure a) q := by
  have hrest : ∀ a b, rel a b → Forgets safe rel (r a >>= fun _ => Pure.pure a) (some b) :=
    fun a _ hab => Forgets.skip (hr a) fun _ => Forgets.pure hab
  have hboth := hp.bind hrest
  rwa [show (q >>= some) = q from bind_pure q] at hboth

theorem Forgets.allocate {k : Option ℕ → Prog C γ} (hk : ∀ n, Forgets safe rel' (k (some n)) q') :
    Forgets safe rel' (allocate >>= k) q' := by
  intro w hw
  have hrun : (Resources.allocate : Prog C (Option ℕ)).run w =
      .ok (some w.next, ⟨w.next + 1, w.next ::ₘ w.live, w.sched.rest⟩) := by
    have hok : w.sched 0 = true := by rw [hw]; rfl
    change (if w.sched 0 = true then _ else _ : Prog C (Option ℕ)) _ = _
    rw [if_pos hok]
    rfl
  rw [StateT.run_bind, hrun]
  refine hk w.next _ ?_
  rw [hw]
  rfl

theorem silent_acquire : Silent safe (acquire : Prog C ℕ) :=
  fun _ => rfl

theorem silent_use (n : ℕ) : Silent safe (use n : Prog C Unit) := by
  intro w
  change Keeps safe w.sched (if n ∈ w.live then _ else _)
  split_ifs
  · rfl
  · trivial

theorem silent_release (n : ℕ) : Silent safe (release n : Prog C Unit) := by
  intro w
  change Keeps safe w.sched (if n ∈ w.live then _ else _)
  split_ifs
  · rfl
  · trivial

theorem silent_need {c : C} (hc : ¬ safe c) (a : Option α) : Silent safe (need c a) := by
  cases a with
  | none => exact fun _ => hc
  | some a => exact Silent.pure a

theorem silent_useAll (ns : List ℕ) : Silent safe (useAll ns : Prog C Unit) := by
  induction ns with
  | nil => exact Silent.pure ()
  | cons n ns ih => exact (silent_use n).bind fun _ => ih

theorem silent_releaseAll (ns : List ℕ) : Silent safe (releaseAll ns : Prog C Unit) := by
  induction ns with
  | nil => exact Silent.pure ()
  | cons n ns ih => exact (silent_release n).bind fun _ => ih

/-- What a program gives in a run that ends, `q` gives. -/
theorem Forgets.of_run {a : α} {w w' : World} (hp : Forgets safe rel p q)
    (hw : w.sched = Schedule.always) (hrun : p.run w = .ok (a, w')) : ∃ b, q = some b ∧ rel a b := by
  have hagrees := hp w hw
  rw [hrun] at hagrees
  exact hagrees.1

/-- A program that releases all it acquires comes to an end where `q` gives a result. -/
theorem Forgets.ends {b : β} {w : World} (hp : Forgets safe rel p (some b))
    (hw : w.sched = Schedule.always) (hr : Released safe (p.run w)) :
    ∃ a w', p.run w = .ok (a, w') ∧ rel a b ∧ w'.live = 0 := by
  have hrun := hp w hw
  match p.run w, hrun, hr with
  | .ok (a, w'), ⟨⟨_, hb, hab⟩, _⟩, hlive =>
    obtain rfl := Option.some.inj hb
    exact ⟨a, w', rfl, hab, hlive⟩
  | .error (.stop c), h, hc => cases h hc

end Resources
