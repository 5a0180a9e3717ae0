import Mathlib.Data.List.Basic

/-!
# Machines driven by calls

A machine answers a call with a result and a next state, or fails. `run` folds a sequence of calls
and fails as soon as one of them does. A `Simulation` relates a machine to a total specification,
under a precondition on the calls that may depend on the abstract state; its run theorem says that
legal sequences never fail and show the results of the specification.
-/

namespace Machine

open scoped List

variable {S A O R V : Type}

def run (step : S → O → Option (R × S)) : S → List O → Option (List R × S)
  | s, [] => some ([], s)
  | s, o :: os => do
    let (r, s) ← step s o
    let (rs, s) ← run step s os
    some (r :: rs, s)

def specRun (spec : A → O → V × A) : A → List O → List V × A
  | a, [] => ([], a)
  | a, o :: os => ((spec a o).1 :: (specRun spec (spec a o).2 os).1, (specRun spec (spec a o).2 os).2)

/-- Every call meets its precondition in the abstract state it is made in. -/
def Legal (spec : A → O → V × A) (pre : A → O → Prop) : A → List O → Prop
  | _, [] => True
  | a, o :: os => pre a o ∧ Legal spec pre (spec a o).2 os

theorem legal_true (spec : A → O → V × A) (a : A) (os : List O) :
    Legal spec (fun _ _ => True) a os := by
  induction os generalizing a with
  | nil => trivial
  | cons o os ih => exact ⟨trivial, ih _⟩

theorem legal_and {spec : A → O → V × A} {pre ok : A → O → Prop} {a : A} {os : List O} :
    Legal spec (fun a o => pre a o ∧ ok a o) a os ↔ Legal spec pre a os ∧ Legal spec ok a os := by
  induction os generalizing a with
  | nil => exact (and_iff_left trivial).symm
  | cons o os ih =>
    rw [Legal, Legal, Legal, ih]
    exact and_and_and_comm

theorem run_cons {step : S → O → Option (R × S)} {s t : S} {o : O} {r : R} (os : List O)
    (h : step s o = some (r, t)) :
    run step s (o :: os) = (run step t os).map fun p => (r :: p.1, p.2) := by
  simp only [run, h, Option.bind_eq_bind, Option.bind_some]
  cases run step t os <;> rfl

theorem run_cons_eq_some {step : S → O → Option (R × S)} {s u : S} {o : O} {os : List O}
    {rs : List R} (h : run step s (o :: os) = some (rs, u)) :
    ∃ r t qs, step s o = some (r, t) ∧ run step t os = some (qs, u) ∧ rs = r :: qs := by
  cases ho : step s o with
  | none => simp [run, ho] at h
  | some p =>
    obtain ⟨r, t⟩ := p
    rw [run_cons os ho, Option.map_eq_some_iff] at h
    obtain ⟨⟨qs, v⟩, hrun, heq⟩ := h
    obtain ⟨rfl, rfl⟩ := Prod.mk.inj heq
    exact ⟨r, t, qs, rfl, hrun, rfl⟩

theorem run_append {step : S → O → Option (R × S)} {s t u : S} {os ps : List O} {rs qs : List R}
    (ho : run step s os = some (rs, t)) (hp : run step t ps = some (qs, u)) :
    run step s (os ++ ps) = some (rs ++ qs, u) := by
  induction os generalizing s rs with
  | nil =>
    obtain ⟨rfl, rfl⟩ := Prod.mk.inj (Option.some.inj ho)
    exact hp
  | cons o os ih =>
    obtain ⟨r, s', rs', hstep, hrun, rfl⟩ := run_cons_eq_some ho
    rw [List.cons_append, run_cons _ hstep, ih hrun]
    rfl

/-- When every call that meets `pre` succeeds and keeps `I`, a whole run of such calls does. -/
theorem run_invariant {I : S → Prop} {pre : O → Prop} {step : S → O → Option (R × S)}
    (hstep : ∀ s o, I s → pre o → ∃ r t, step s o = some (r, t) ∧ I t) {s : S} (hs : I s)
    {os : List O} (hos : ∀ o ∈ os, pre o) : ∃ rs t, run step s os = some (rs, t) ∧ I t := by
  induction os generalizing s with
  | nil => exact ⟨[], s, rfl, hs⟩
  | cons o os ih =>
    obtain ⟨r, t, ht, hI⟩ := hstep s o hs (hos o List.mem_cons_self)
    obtain ⟨rs, u, hu, hIu⟩ := ih hI fun o' ho' => hos o' (List.mem_cons_of_mem _ ho')
    exact ⟨r :: rs, u, by rw [run_cons os ht, hu]; rfl, hIu⟩

theorem specRun_append (spec : A → O → V × A) (a : A) (os ps : List O) :
    specRun spec a (os ++ ps) =
      ((specRun spec a os).1 ++ (specRun spec (specRun spec a os).2 ps).1,
        (specRun spec (specRun spec a os).2 ps).2) := by
  induction os generalizing a with
  | nil => rfl
  | cons o os ih => simp only [List.cons_append, specRun, ih]

theorem specRun_invariant {I : A → Prop} {spec : A → O → V × A}
    (hstep : ∀ a o, I a → I (spec a o).2) {a : A} (ha : I a) (os : List O) :
    I (specRun spec a os).2 := by
  induction os generalizing a with
  | nil => exact ha
  | cons o os ih => exact ih (hstep a o ha)

/-- A component of a specification that the other calls leave alone answers its own calls as it would
without the others. -/
theorem specRun_component {B P W : Type} (spec : A → O → V × A) (part : B → P → W × B) (view : A → B)
    (call : O → Option P) (answer : V → Option W)
    (hown : ∀ a o p, call o = some p →
      answer (spec a o).1 = some (part (view a) p).1 ∧ view (spec a o).2 = (part (view a) p).2)
    (hother : ∀ a o, call o = none → answer (spec a o).1 = none ∧ view (spec a o).2 = view a)
    (a : A) (os : List O) :
    (specRun spec a os).1.filterMap answer = (specRun part (view a) (os.filterMap call)).1 := by
  induction os generalizing a with
  | nil => rfl
  | cons o os ih =>
    cases ho : call o with
    | none =>
      obtain ⟨hanswer, hview⟩ := hother a o ho
      rw [specRun, List.filterMap_cons_none hanswer, List.filterMap_cons_none ho, ih, hview]
    | some p =>
      obtain ⟨hanswer, hview⟩ := hown a o p ho
      rw [specRun, List.filterMap_cons_some hanswer, List.filterMap_cons_some ho, ih, hview, specRun]

/-- Accounting over a run. When each call's books balance, so that what the state held and the call
took in is what the new state holds and the call gave back, the books of the whole run balance. -/
theorem run_conserves {E : Type} {step : S → O → Option (R × S)} (held : S → List E)
    (took : O → R → List E) (gave : R → List E) {s u : S} {os : List O} {rs : List R}
    (hstep : ∀ pre o post, os = pre ++ o :: post → ∀ ps t r v, run step s pre = some (ps, t) →
      step t o = some (r, v) → (held t ++ took o r).Perm (held v ++ gave r))
    (hrun : run step s os = some (rs, u)) :
    (held s ++ (List.zipWith took os rs).flatten).Perm (held u ++ (rs.map gave).flatten) := by
  induction os generalizing s rs with
  | nil =>
    obtain ⟨rfl, rfl⟩ := Prod.mk.inj (Option.some.inj hrun)
    exact List.Perm.refl _
  | cons o os ih =>
    obtain ⟨r, v, rs', hov, hrun', rfl⟩ := run_cons_eq_some hrun
    have hhead := hstep [] o os rfl [] s r v rfl hov
    have htail := ih (fun pre o' post heq ps t r' v' hpre => hstep (o :: pre) o' post
      (by rw [heq]; rfl) (r :: ps) t r' v' (by rw [run_cons pre hov, hpre]; rfl)) hrun'
    simp only [List.zipWith_cons_cons, List.flatten_cons, List.map_cons]
    calc
      held s ++ (took o r ++ (List.zipWith took os rs').flatten)
          = (held s ++ took o r) ++ (List.zipWith took os rs').flatten := by rw [List.append_assoc]
      _ ~ (held v ++ gave r) ++ (List.zipWith took os rs').flatten := hhead.append_right _
      _ ~ (gave r ++ held v) ++ (List.zipWith took os rs').flatten :=
        List.perm_append_comm.append_right _
      _ = gave r ++ (held v ++ (List.zipWith took os rs').flatten) := by rw [List.append_assoc]
      _ ~ gave r ++ (held u ++ (rs'.map gave).flatten) := htail.append_left _
      _ = (gave r ++ held u) ++ (rs'.map gave).flatten := by rw [List.append_assoc]
      _ ~ (held u ++ gave r) ++ (rs'.map gave).flatten := List.perm_append_comm.append_right _
      _ = held u ++ (gave r ++ (rs'.map gave).flatten) := by rw [List.append_assoc]

/-- What a machine shows in a run, one that follows each of its successful steps shows too. -/
theorem run_follows {T : Type} {step : S → O → Option (R × S)} {step' : T → O → Option (R × T)}
    {rel : T → S → Prop}
    (hstep : ∀ t s o r s', rel t s → step s o = some (r, s') →
      ∃ t', step' t o = some (r, t') ∧ rel t' s')
    {t : T} {s s' : S} (hr : rel t s) {os : List O} {rs : List R}
    (hrun : run step s os = some (rs, s')) : ∃ t', run step' t os = some (rs, t') ∧ rel t' s' := by
  induction os generalizing t s rs with
  | nil =>
    obtain ⟨rfl, rfl⟩ := Prod.mk.inj (Option.some.inj hrun)
    exact ⟨t, rfl, hr⟩
  | cons o os ih =>
    obtain ⟨r, u, qs, ho, hrest, rfl⟩ := run_cons_eq_some hrun
    obtain ⟨u', ho', hr'⟩ := hstep t s o r u hr ho
    obtain ⟨t', hrun', hr''⟩ := ih hr' hrest
    refine ⟨t', ?_, hr''⟩
    rw [run_cons os ho', hrun']
    rfl

structure Simulation (step : S → O → Option (R × S)) (spec : A → O → V × A)
    (pre : A → O → Prop) where
  rel : S → A → Prop
  obs : R → V
  simulates : ∀ s a o, rel s a → pre a o →
    ∃ r t, step s o = some (r, t) ∧ obs r = (spec a o).1 ∧ rel t (spec a o).2

theorem Simulation.run {step : S → O → Option (R × S)} {spec : A → O → V × A}
    {pre : A → O → Prop} (sim : Simulation step spec pre) {s : S} {a : A} (hr : sim.rel s a)
    {os : List O} (hl : Legal spec pre a os) :
    ∃ rs t, Machine.run step s os = some (rs, t) ∧
      rs.map sim.obs = (specRun spec a os).1 ∧ sim.rel t (specRun spec a os).2 := by
  induction os generalizing s a with
  | nil => exact ⟨[], s, rfl, rfl, hr⟩
  | cons o os ih =>
    obtain ⟨hpre, hl⟩ := hl
    obtain ⟨r, t, ht, hobs, hrel⟩ := sim.simulates s a o hr hpre
    obtain ⟨rs, u, hu, hmap, hrel'⟩ := ih hrel hl
    refine ⟨r :: rs, u, by rw [run_cons os ht, hu]; rfl, ?_, hrel'⟩
    simp only [List.map_cons, hobs, hmap, specRun]

/-- A machine that simulates its specification as long as the calls are `ok`, and fails at a call that is
not, shows the results of the specification exactly in the runs whose calls are all `ok`. -/
theorem Simulation.run_iff {step : S → O → Option (R × S)} {spec : A → O → V × A}
    {pre ok : A → O → Prop} (sim : Simulation step spec fun a o => pre a o ∧ ok a o)
    (hfail : ∀ s a o, sim.rel s a → ¬ ok a o → step s o = none) {s : S} {a : A} (hr : sim.rel s a)
    {os : List O} (hl : Legal spec pre a os) :
    (∃ rs t, Machine.run step s os = some (rs, t) ∧
      rs.map sim.obs = (specRun spec a os).1 ∧ sim.rel t (specRun spec a os).2) ↔
        Legal spec ok a os := by
  constructor
  · rintro ⟨rs, t, hrun, -, -⟩
    induction os generalizing s a rs with
    | nil => trivial
    | cons o os ih =>
      obtain ⟨r, u, qs, hstep, hrest, -⟩ := run_cons_eq_some hrun
      have hok : ok a o := by
        by_contra hno
        rw [hfail s a o hr hno] at hstep
        cases hstep
      obtain ⟨r', u', hstep', -, hrel⟩ := sim.simulates s a o hr ⟨hl.1, hok⟩
      obtain ⟨rfl, rfl⟩ := Prod.mk.inj (Option.some.inj (hstep.symm.trans hstep'))
      exact ⟨hok, ih hrel hl.2 qs hrest⟩
  · intro hok
    exact sim.run hr (legal_and.mpr ⟨hl, hok⟩)

end Machine
