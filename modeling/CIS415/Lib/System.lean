import Mathlib.Algebra.GroupWithZero.Nat
import Mathlib.Data.List.Basic
import Mathlib.Data.List.Induction
import Mathlib.Logic.Function.Basic

/-!
# Systems that take one step at a time

A system is a partial step function: `step s a` is the state after action `a` where it is enabled in
`s`. An execution is a list of actions, each enabled when its turn comes; any interleaving of any
number of threads is such a list. What holds at the start and is kept by every step holds in every
state reached. A `Guarded` execution takes only steps that meet a condition. An observer that records
something at some of the steps adds a history to the state, about which there are invariants too. The
parties of a system may be a list that grows; a step changes one of them.
-/

namespace System

variable {S A : Type} {step : S → A → Option S} {s t : S} {as : List A}

def exec (step : S → A → Option S) : S → List A → Option S
  | s, [] => some s
  | s, a :: as => (step s a).bind fun t => exec step t as

/-- Every step of the execution meets the condition `guard` in the state it is taken in. -/
def Guarded (step : S → A → Option S) (guard : S → A → Prop) : S → List A → Prop
  | _, [] => True
  | s, a :: as => guard s a ∧ ∀ t, step s a = some t → Guarded step guard t as

instance Guarded.decidable (step : S → A → Option S) (guard : S → A → Prop)
    [∀ s a, Decidable (guard s a)] : ∀ s as, Decidable (Guarded step guard s as)
  | _, [] => .isTrue trivial
  | s, a :: as =>
    have (t : S) : Decidable (Guarded step guard t as) := Guarded.decidable step guard t as
    inferInstanceAs (Decidable (guard s a ∧ ∀ t ∈ step s a, Guarded step guard t as))

theorem exec_cons_eq_some {a : A} (h : exec step s (a :: as) = some t) :
    ∃ u, step s a = some u ∧ exec step u as = some t :=
  Option.bind_eq_some_iff.mp h

theorem exec_append (as bs : List A) :
    exec step s (as ++ bs) = (exec step s as).bind fun u => exec step u bs := by
  induction as generalizing s with
  | nil => rfl
  | cons a as ih =>
    rw [List.cons_append, exec, exec, Option.bind_assoc]
    congr 1
    funext u
    exact ih

theorem exec_take (h : exec step s as = some t) (n : ℕ) : ∃ u, exec step s (as.take n) = some u := by
  rw [← List.take_append_drop n as, exec_append] at h
  obtain ⟨u, hu, -⟩ := Option.bind_eq_some_iff.mp h
  exact ⟨u, hu⟩

/-- What every guarded step keeps holds after a guarded execution. -/
theorem guarded_invariant {I : S → Prop} {guard : S → A → Prop}
    (hstep : ∀ s a t, I s → guard s a → step s a = some t → I t) (hs : I s)
    (hg : Guarded step guard s as) (h : exec step s as = some t) : I t := by
  induction as generalizing s with
  | nil =>
    obtain rfl := Option.some.inj h
    exact hs
  | cons a as ih =>
    obtain ⟨u, hu, hrest⟩ := exec_cons_eq_some h
    exact ih (hstep s a u hs hg.1 hu) (hg.2 u hu) hrest

/-- The steps of an execution of these actions keep the invariant. -/
theorem exec_invariant_of_mem {I : S → Prop}
    (hstep : ∀ s a t, a ∈ as → I s → step s a = some t → I t) (hs : I s)
    (h : exec step s as = some t) : I t := by
  induction as generalizing s with
  | nil =>
    obtain rfl := Option.some.inj h
    exact hs
  | cons a as ih =>
    obtain ⟨u, hu, hrest⟩ := exec_cons_eq_some h
    exact ih (fun s b t hb => hstep s b t (List.mem_cons_of_mem a hb))
      (hstep s a u List.mem_cons_self hs hu) hrest

theorem exec_invariant {I : S → Prop} (hstep : ∀ s a t, I s → step s a = some t → I t)
    (hs : I s) (h : exec step s as = some t) : I t :=
  exec_invariant_of_mem (fun s a t _ => hstep s a t) hs h

def restrict (step : S → A → Option S) (guard : A → Prop) [DecidablePred guard] (s : S) (a : A) :
    Option S :=
  if guard a then step s a else none

theorem restrict_eq_some {guard : A → Prop} [DecidablePred guard] {a : A} :
    restrict step guard s a = some t ↔ guard a ∧ step s a = some t := by
  rw [restrict]
  split
  · rename_i ha
    exact ⟨fun h => ⟨ha, h⟩, fun h => h.2⟩
  · rename_i ha
    exact ⟨(fun h => by cases h), fun h => absurd h.1 ha⟩

/-- What an observer of the execution records, one action after the other. -/
def observe {E : Type} (step : S → A → Option S) (obs : S → A → Option E) : S → List A → List E
  | _, [] => []
  | s, a :: as =>
    (obs s a).toList ++
      match step s a with
      | some t => observe step obs t as
      | none => []

theorem observe_cons {E : Type} {obs : S → A → Option E} {a : A} {u : S} (h : step s a = some u) :
    observe step obs s (a :: as) = (obs s a).toList ++ observe step obs u as := by
  rw [observe, h]

theorem exists_of_mem_observe {E : Type} {obs : S → A → Option E} {e : E}
    (he : e ∈ observe step obs s as) : ∃ u, ∃ a ∈ as, obs u a = some e := by
  induction as generalizing s with
  | nil => cases he
  | cons a as ih =>
    rw [observe] at he
    rcases List.mem_append.mp he with he | he
    · exact ⟨s, a, List.mem_cons_self, Option.mem_toList.mp he⟩
    · split at he
      · obtain ⟨u, b, hb, hobs⟩ := ih he
        exact ⟨u, b, List.mem_cons_of_mem a hb, hobs⟩
      · cases he

theorem observe_invariant_of_mem {E : Type} {obs : S → A → Option E} {I : S → List E → Prop}
    (hstep : ∀ s es t, ∀ a ∈ as, I s es → step s a = some t → I t (es ++ (obs s a).toList))
    {es : List E} (hs : I s es) (h : exec step s as = some t) :
    I t (es ++ observe step obs s as) := by
  induction as generalizing s es with
  | nil =>
    obtain rfl := Option.some.inj h
    rwa [observe, List.append_nil]
  | cons a as ih =>
    obtain ⟨u, hu, hrest⟩ := exec_cons_eq_some h
    rw [observe_cons hu, ← List.append_assoc]
    exact ih (fun s es t b hb => hstep s es t b (List.mem_cons_of_mem a hb))
      (hstep s es u a List.mem_cons_self hs hu) hrest

theorem observe_guarded_invariant {E : Type} {obs : S → A → Option E} {I : S → List E → Prop}
    {guard : S → A → Prop}
    (hstep : ∀ s es a t, I s es → guard s a → step s a = some t → I t (es ++ (obs s a).toList))
    {es : List E} (hs : I s es) (hg : Guarded step guard s as) (h : exec step s as = some t) :
    I t (es ++ observe step obs s as) := by
  induction as generalizing s es with
  | nil =>
    obtain rfl := Option.some.inj h
    rwa [observe, List.append_nil]
  | cons a as ih =>
    obtain ⟨u, hu, hrest⟩ := exec_cons_eq_some h
    rw [observe_cons hu, ← List.append_assoc]
    exact ih (hstep s es a u hs hg.1 hu) (hg.2 u hu) hrest

theorem observe_invariant {E : Type} {obs : S → A → Option E} {I : S → List E → Prop}
    (hstep : ∀ s es a t, I s es → step s a = some t → I t (es ++ (obs s a).toList)) {es : List E}
    (hs : I s es) (h : exec step s as = some t) : I t (es ++ observe step obs s as) :=
  observe_invariant_of_mem (fun s es t a _ => hstep s es a t) hs h

/-- An invariant of the state together with the actions that led to it. -/
theorem history_invariant {I : S → List A → Prop}
    (hstep : ∀ s bs a t, I s bs → step s a = some t → I t (bs ++ [a])) {bs : List A} (hs : I s bs)
    (h : exec step s as = some t) : I t (bs ++ as) := by
  induction as generalizing s bs with
  | nil =>
    obtain rfl := Option.some.inj h
    rwa [List.append_nil]
  | cons a as ih =>
    obtain ⟨u, hu, hrest⟩ := exec_cons_eq_some h
    have hnext := ih (hstep s bs a u hs hu) hrest
    rwa [List.append_assoc] at hnext

/-- A measure that every step lowers bounds the length of every execution. -/
theorem exec_length_le {m : S → ℕ} (hm : ∀ s a t, step s a = some t → m t < m s)
    (h : exec step s as = some t) : as.length + m t ≤ m s := by
  induction as generalizing s with
  | nil =>
    obtain rfl := Option.some.inj h
    exact Nat.le_of_eq (Nat.zero_add _)
  | cons a as ih =>
    obtain ⟨u, hu, hrest⟩ := exec_cons_eq_some h
    have hle := ih hrest
    have hlt := hm s a u hu
    rw [List.length_cons]
    omega

/-- A party of a list with a new one at its end. -/
theorem getElem?_concat_eq_some {P : Type} {ps : List P} {p q : P} {k : ℕ}
    (h : (ps ++ [p])[k]? = some q) : ps[k]? = some q ∨ k = ps.length ∧ q = p := by
  rw [List.getElem?_append] at h
  split_ifs at h with hk
  · exact Or.inl h
  · rw [List.getElem?_singleton] at h
    obtain ⟨hzero, hq⟩ := Option.ite_none_right_eq_some.mp h
    exact Or.inr ⟨by omega, (Option.some.inj hq).symm⟩

/-- Of the parties that have something to do one is the last. -/
theorem exists_last {P : Type} {busy : P → Prop} {ps : List P} (h : ∃ p ∈ ps, busy p) :
    ∃ (k : ℕ) (p : P), ps[k]? = some p ∧ busy p ∧
      ∀ (j : ℕ) (q : P), k < j → ps[j]? = some q → ¬ busy q := by
  induction ps using List.reverseRecOn with
  | nil =>
    obtain ⟨p, hp, -⟩ := h
    cases hp
  | append_singleton ps r ih =>
    by_cases hr : busy r
    · refine ⟨ps.length, r, List.getElem?_concat_length, hr, ?_⟩
      intro j q hj hq
      rcases getElem?_concat_eq_some hq with hq | ⟨rfl, -⟩
      · exact absurd (List.getElem?_eq_some_iff.mp hq).1 (Nat.not_lt_of_lt hj)
      · exact absurd hj (Nat.lt_irrefl _)
    · obtain ⟨p, hp, hbusy⟩ := h
      have hmem : p ∈ ps := by
        rcases List.mem_append.mp hp with hp | hp
        · exact hp
        · rw [List.mem_singleton.mp hp] at hbusy
          exact absurd hbusy hr
      obtain ⟨k, q, hq, hqbusy, hlater⟩ := ih ⟨p, hmem, hbusy⟩
      have hlt := (List.getElem?_eq_some_iff.mp hq).1
      refine ⟨k, q, by rwa [List.getElem?_append_left hlt], hqbusy, ?_⟩
      intro j q' hj hq'
      rcases getElem?_concat_eq_some hq' with hq' | ⟨-, rfl⟩
      · exact hlater j q' hj hq'
      · exact hr

/-- Two lists of parties that are related one by one, when one party of the first takes a step. -/
theorem forall₂_set_left {P Q : Type} {R : P → Q → Prop} {ps : List P} {qs : List Q}
    (h : List.Forall₂ R ps qs) {k : ℕ} {p : P} (hp : ∀ q, qs[k]? = some q → R p q) :
    List.Forall₂ R (ps.set k p) qs := by
  induction h generalizing k with
  | nil => exact .nil
  | cons hr hrest ih =>
    cases k with
    | zero => exact .cons (hp _ rfl) hrest
    | succ k => exact .cons hr (ih fun q hq => hp q hq)

theorem forall₂_set {P Q : Type} {R : P → Q → Prop} {ps : List P} {qs : List Q}
    (h : List.Forall₂ R ps qs) (k : ℕ) {p : P} {q : Q} (hr : R p q) :
    List.Forall₂ R (ps.set k p) (qs.set k q) := by
  induction h generalizing k with
  | nil => exact .nil
  | cons hr' hrest ih =>
    cases k with
    | zero => exact .cons hr hrest
    | succ k => exact .cons hr' (ih k)

theorem exists_of_forall₂ {P Q : Type} {R : P → Q → Prop} {ps : List P} {qs : List Q}
    (h : List.Forall₂ R ps qs) {k : ℕ} {p : P} (hp : ps[k]? = some p) :
    ∃ q, qs[k]? = some q ∧ R p q := by
  induction h generalizing k with
  | nil => cases hp
  | cons hr hrest ih =>
    cases k with
    | zero =>
      obtain rfl := Option.some.inj hp
      exact ⟨_, rfl, hr⟩
    | succ k => exact ih hp

/-- A total over a list of parties when one of them takes a step. -/
theorem sum_map_set {P : Type} (f : P → ℕ) {ps : List P} {k : ℕ} {p : P} (h : ps[k]? = some p)
    (q : P) : ((ps.set k q).map f).sum + f p = (ps.map f).sum + f q := by
  induction ps generalizing k with
  | nil => cases h
  | cons r ps ih =>
    cases k with
    | zero =>
      obtain rfl := Option.some.inj h
      simp only [List.set_cons_zero, List.map_cons, List.sum_cons]
      omega
    | succ k =>
      have htail := ih (k := k) h
      simp only [List.set_cons_succ, List.map_cons, List.sum_cons]
      omega

def Reaches (step : S → A → Option S) (s t : S) : Prop :=
  ∃ as, exec step s as = some t

theorem Reaches.refl (s : S) : Reaches step s s :=
  ⟨[], rfl⟩

theorem Reaches.head {u : S} {a : A} (ha : step s a = some u) (h : Reaches step u t) :
    Reaches step s t := by
  obtain ⟨as, has⟩ := h
  refine ⟨a :: as, ?_⟩
  rw [exec, ha]
  exact has

theorem Reaches.trans {u : S} (h : Reaches step s u) (h' : Reaches step u t) :
    Reaches step s t := by
  obtain ⟨as, has⟩ := h
  induction as generalizing s with
  | nil =>
    obtain rfl := Option.some.inj has
    exact h'
  | cons a as ih =>
    obtain ⟨v, hv, hrest⟩ := exec_cons_eq_some has
    exact .head hv (ih hrest)

theorem Reaches.invariant {I : S → Prop} (h : Reaches step s t)
    (hstep : ∀ s a t, I s → step s a = some t → I t) (hs : I s) : I t := by
  obtain ⟨as, has⟩ := h
  exact exec_invariant hstep hs has

/-- A rank that some execution lowers from every state that is not yet done reaches one that is. -/
theorem reaches_of_rank {I done : S → Prop} {R : S → S → Prop} (rank : S → ℕ)
    (hrefl : ∀ s, R s s) (htrans : ∀ s t u, R s t → R t u → R s u)
    (hserve : ∀ s, I s → ¬ done s → ∃ t, Reaches step s t ∧ I t ∧ R s t ∧ rank t < rank s)
    (hs : I s) : ∃ t, Reaches step s t ∧ I t ∧ R s t ∧ done t := by
  induction hn : rank s using Nat.strongRecOn generalizing s with
  | _ n ih =>
    by_cases hd : done s
    · exact ⟨s, .refl s, hs, hrefl s, hd⟩
    · obtain ⟨t, hst, ht, hR, hlt⟩ := hserve s hs hd
      obtain ⟨u, htu, hu, hR', hd'⟩ := ih (rank t) (hn ▸ hlt) ht rfl
      exact ⟨u, hst.trans htu, hu, htrans s t u hR hR', hd'⟩

/-- A view of the parts of a state that an update of one part keeps. -/
theorem view_update {I B V : Type*} [DecidableEq I] {f : I → B} {i : I} {b : B} (view : B → V)
    (h : view b = view (f i)) (j : I) : view (Function.update f i b j) = view (f j) := by
  by_cases hj : j = i
  · subst hj
    rw [Function.update_self, h]
  · rw [Function.update_of_ne hj]

end System
