import CIS415.Lib.System

/-!
# Fair traces

A trace is an infinite sequence of states in which each step is an action or leaves the state alone, so
that an execution that ends goes on as a trace that rests. A class of actions is treated weakly fairly
if it is taken whenever it stays enabled from some point on, and strongly fairly if it is taken whenever
it is enabled again and again. The rules below derive that `P` leads to `Q` from what single steps do.
-/

namespace System

variable {S A : Type} {step : S → A → Option S}

structure Trace (step : S → A → Option S) where
  state : ℕ → S
  act : ℕ → Option A
  next : ∀ n, (act n).elim (some (state n)) (step (state n)) = some (state (n + 1))

def Enabled (step : S → A → Option S) (acts : A → Prop) (s : S) : Prop :=
  ∃ a, acts a ∧ (step s a).isSome

def Until (step : S → A → Option S) (P Q : S → Prop) : Prop :=
  ∀ s a t, P s → step s a = some t → P t ∨ Q t

namespace Trace

variable {tr : Trace step} {acts : A → Prop} {P Q I : S → Prop}

def Taken (tr : Trace step) (acts : A → Prop) (n : ℕ) : Prop :=
  ∃ a, tr.act n = some a ∧ acts a

def WeaklyFair (tr : Trace step) (acts : A → Prop) : Prop :=
  ∀ n, (∀ m, n ≤ m → Enabled step acts (tr.state m)) → ∃ m, n ≤ m ∧ tr.Taken acts m

def StronglyFair (tr : Trace step) (acts : A → Prop) : Prop :=
  ∀ n, (∀ m, n ≤ m → ∃ l, m ≤ l ∧ Enabled step acts (tr.state l)) → ∃ m, n ≤ m ∧ tr.Taken acts m

/-- Weak fairness that is owed only while `C` holds. -/
def WeaklyFairWhile (tr : Trace step) (C : S → Prop) (acts : A → Prop) : Prop :=
  ∀ n, (∀ m, n ≤ m → C (tr.state m) ∧ Enabled step acts (tr.state m)) →
    ∃ m, n ≤ m ∧ tr.Taken acts m

theorem WeaklyFair.weaken (h : tr.WeaklyFair acts) (C : S → Prop) : tr.WeaklyFairWhile C acts :=
  fun n hn => h n fun m hm => (hn m hm).2

/-- A class that is enabled from some point on is enabled again and again. -/
theorem StronglyFair.weaklyFair (h : tr.StronglyFair acts) : tr.WeaklyFair acts :=
  fun n hn => h n fun m hm => ⟨m, Nat.le_refl m, hn m hm⟩

def Leads (tr : Trace step) (P Q : S → Prop) : Prop :=
  ∀ n, P (tr.state n) → ∃ m, n ≤ m ∧ Q (tr.state m)

theorem Leads.trans {R : S → Prop} (h : tr.Leads P Q) (h' : tr.Leads Q R) : tr.Leads P R := by
  intro n hn
  obtain ⟨m, hm, hQ⟩ := h n hn
  obtain ⟨l, hl, hR⟩ := h' m hQ
  exact ⟨l, Nat.le_trans hm hl, hR⟩

/-- The trace of a system that takes a step for each step of the first one. -/
def map {S' A' : Type} {step' : S' → A' → Option S'} (tr : Trace step) (f : S → S') (g : A → A')
    (h : ∀ s a t, step s a = some t → step' (f s) (g a) = some (f t)) : Trace step' where
  state n := f (tr.state n)
  act n := (tr.act n).map g
  next n := by
    have hn := tr.next n
    cases ha : tr.act n with
    | none =>
      rw [ha] at hn
      exact congrArg _ (congrArg f (Option.some.inj hn))
    | some a =>
      rw [ha] at hn
      exact h _ a _ hn

def restrict (tr : Trace step) (guard : A → Prop) [DecidablePred guard]
    (h : ∀ n a, tr.act n = some a → guard a) : Trace (System.restrict step guard) where
  state := tr.state
  act := tr.act
  next n := by
    have hn := tr.next n
    cases ha : tr.act n with
    | none =>
      rw [ha] at hn
      exact hn
    | some a =>
      rw [ha] at hn
      exact restrict_eq_some.mpr ⟨h n a ha, hn⟩

theorem WeaklyFair.restrict {guard : A → Prop} [DecidablePred guard] (hfair : tr.WeaklyFair acts)
    (h : ∀ n a, tr.act n = some a → guard a) : (tr.restrict guard h).WeaklyFair acts := by
  intro n hn
  apply hfair n
  intro m hm
  obtain ⟨a, ha, hen⟩ := hn m hm
  obtain ⟨t, ht⟩ := Option.isSome_iff_exists.mp hen
  exact ⟨a, ha, Option.isSome_iff_exists.mpr ⟨t, (restrict_eq_some.mp ht).2⟩⟩

theorem step_of_act {n : ℕ} {a : A} (h : tr.act n = some a) :
    step (tr.state n) a = some (tr.state (n + 1)) := by
  have hn := tr.next n
  rwa [h] at hn

/-- What a step and a rest keep of a state holds of the next one. -/
theorem next_of_step {n : ℕ} (hrest : I (tr.state n))
    (hstep : ∀ a, step (tr.state n) a = some (tr.state (n + 1)) → I (tr.state (n + 1))) :
    I (tr.state (n + 1)) := by
  cases ha : tr.act n with
  | none =>
    have hn := tr.next n
    rw [ha] at hn
    rwa [← Option.some.inj hn]
  | some a => exact hstep a (step_of_act ha)

theorem invariant (tr : Trace step) (hstep : ∀ s a t, I s → step s a = some t → I t)
    (h : I (tr.state 0)) (n : ℕ) : I (tr.state n) := by
  induction n with
  | zero => exact h
  | succ n ih => exact next_of_step ih fun a ha => hstep _ a _ ih ha

/-- An execution that ends goes on as a trace that rests. -/
def resting {s t : S} {as : List A} (h : exec step s as = some t) : Trace step where
  state n := (exec step s (as.take n)).getD s
  act n := as[n]?
  next n := by
    obtain ⟨u, hu⟩ := exec_take h n
    obtain ⟨w, hw⟩ := exec_take h (n + 1)
    rw [hu, hw, Option.getD_some, Option.getD_some]
    cases ha : as[n]? with
    | none =>
      have hlen := List.getElem?_eq_none_iff.mp ha
      rw [List.take_of_length_le hlen] at hu
      rw [List.take_of_length_le (Nat.le_succ_of_le hlen), hu] at hw
      exact hw
    | some a =>
      rw [List.take_add_one, ha, exec_append, hu] at hw
      obtain ⟨w', hstep, hw'⟩ := exec_cons_eq_some hw
      obtain rfl := Option.some.inj hw'
      exact hstep

theorem resting_state {s t : S} {as : List A} (h : exec step s as = some t) {n : ℕ}
    (hn : as.length ≤ n) : (resting h).state n = t := by
  change (exec step s (as.take n)).getD s = t
  rw [List.take_of_length_le hn, h, Option.getD_some]

/-- It is fair to the actions that are not enabled in its last state. -/
theorem resting_stronglyFair {s t : S} {as : List A} (h : exec step s as = some t)
    (hno : ¬ Enabled step acts t) : (resting h).StronglyFair acts := by
  intro n hn
  obtain ⟨l, hl, hen⟩ := hn (max n as.length) (Nat.le_max_left ..)
  rw [resting_state h (Nat.le_trans (Nat.le_max_right ..) hl)] at hen
  exact absurd hen hno

/-- As long as `Q` does not come, `P` stays. -/
theorem stays (hkeep : Until step P Q) {n : ℕ} (h : P (tr.state n))
    (hq : ∀ m, n ≤ m → ¬ Q (tr.state m)) {m : ℕ} (hm : n ≤ m) : P (tr.state m) := by
  induction hm with
  | refl => exact h
  | step hm ih =>
    apply next_of_step ih
    intro a ha
    exact (hkeep _ a _ ih ha).resolve_right (hq _ (Nat.le_succ_of_le hm))

/-- Actions that are treated strongly fairly and lead from `P` to `Q` are taken, if they are enabled
again and again while `P` holds. -/
theorem leads_of_stronglyFair (hfair : tr.StronglyFair acts) (hkeep : Until step P Q)
    (hact : ∀ s a t, P s → acts a → step s a = some t → Q t)
    (hen : tr.Leads P fun s => ¬ P s ∨ Enabled step acts s) : tr.Leads P Q := by
  intro n hn
  by_contra hno
  have hq : ∀ m, n ≤ m → ¬ Q (tr.state m) := fun m hm hQ => hno ⟨m, hm, hQ⟩
  obtain ⟨m, hm, a, ha, hacts⟩ := hfair n fun m hm => by
    obtain ⟨l, hl, hor⟩ := hen m (stays hkeep hn hq hm)
    exact ⟨l, hl, hor.resolve_left (not_not.mpr (stays hkeep hn hq (Nat.le_trans hm hl)))⟩
  exact hq (m + 1) (Nat.le_succ_of_le hm)
    (hact _ a _ (stays hkeep hn hq hm) hacts (step_of_act ha))

/-- Under weak fairness they have to be enabled as long as `P` holds. -/
theorem leads_of_weaklyFairWhile {C : S → Prop} (hfair : tr.WeaklyFairWhile C acts)
    (hkeep : Until step P Q) (hact : ∀ s a t, P s → acts a → step s a = some t → Q t)
    (hen : ∀ s, P s → C s ∧ Enabled step acts s) : tr.Leads P Q := by
  intro n hn
  by_contra hno
  have hq : ∀ m, n ≤ m → ¬ Q (tr.state m) := fun m hm hQ => hno ⟨m, hm, hQ⟩
  obtain ⟨m, hm, a, ha, hacts⟩ := hfair n fun m hm => hen _ (stays hkeep hn hq hm)
  exact hq (m + 1) (Nat.le_succ_of_le hm)
    (hact _ a _ (stays hkeep hn hq hm) hacts (step_of_act ha))

theorem leads_of_weaklyFair (hfair : tr.WeaklyFair acts) (hkeep : Until step P Q)
    (hact : ∀ s a t, P s → acts a → step s a = some t → Q t)
    (hen : ∀ s, P s → Enabled step acts s) : tr.Leads P Q :=
  leads_of_weaklyFairWhile (hfair.weaken fun _ => True) hkeep hact fun s hs => ⟨trivial, hen s hs⟩

/-- `P` leads to `Q` if it always leads to `Q` or to a lower rank. -/
theorem leads_of_rank (rank : S → ℕ)
    (h : ∀ c, tr.Leads (fun s => P s ∧ rank s = c) fun s => Q s ∨ P s ∧ rank s < c) :
    tr.Leads P Q := by
  intro n hn
  induction hc : rank (tr.state n) using Nat.strongRecOn generalizing n with
  | _ c ih =>
    obtain ⟨m, hm, hQ | ⟨hP, hlt⟩⟩ := h c n ⟨hn, hc⟩
    · exact ⟨m, hm, hQ⟩
    · obtain ⟨l, hl, hQ⟩ := ih _ hlt m hP rfl
      exact ⟨l, Nat.le_trans hm hl, hQ⟩

end Trace

end System
