import CIS415.LaunchSpec
import CIS415.Thv1Family

/-!
# The launching loop within thv1.c

Where every `fork` succeeds, the steps that the processes take in the launching loop are a run of that
loop by itself: the waiting and the ends of the processes leave it alone.
-/

namespace CIS415.Thv1

open System

variable {n : ℕ} {p : Process} {q : Launch.Process} {pool t : List Process}
  {launched : List Launch.Process} {a : Action} {acts : List Action} {pid : ℕ → ℤ}

/-- The step of the launching loop, if it is one; the pid of a new process is its place in the pool. -/
def launching (pool : List Process) : Action → Option Launch.Action
  | .condition k => some (.condition k)
  | .fork k _ => some (.fork k pool.length)
  | .execvp k succeeds => some (.execvp k succeeds)
  | _ => none

def Place.launch : Place → Launch.Place
  | .condition => .condition
  | .fork => .fork
  | .execvp => .execvp
  | .command => .replaced
  | .wait => .past
  | .zombie .exited => .replaced
  | .zombie .returned => .past
  | .reaped .exited => .replaced
  | .reaped .returned => .past

/-- `q` is where `p` is, and as long as it is in the launching loop it has the same variables. -/
structure Launches (p : Process) (q : Launch.Process) : Prop where
  place : q.place = p.place.launch
  same : ¬ q.Done → p.i = q.i ∧ p.pid = q.pid

/-- A step of a process that is through with the loop. -/
theorem launches_rest {k i : ℕ} {pid : ℕ → ℤ} {parent : Option ℕ} {place : Place}
    (h : List.Forall₂ Launches pool launched) (hp : pool[k]? = some p)
    (hdone : p.place.launch = .past ∨ p.place.launch = .replaced)
    (hplace : place.launch = p.place.launch) :
    List.Forall₂ Launches (pool.set k ⟨i, pid, parent, place⟩) launched := by
  refine forall₂_set_left h fun q hq => ?_
  obtain ⟨q', hq', hlaunches⟩ := exists_of_forall₂ h hp
  obtain rfl := Option.some.inj (hq.symm.trans hq')
  have hqdone : q.Done := by
    rw [Launch.Process.Done, hlaunches.place]
    exact hdone
  exact ⟨hlaunches.place.trans hplace.symm, fun hnot => absurd hqdone hnot⟩

/-- What the processes of `Launch` do at a step of the processes of the whole program. -/
theorem launches_step (h : List.Forall₂ Launches pool launched) (hfork : ∀ k, a ≠ .fork k false)
    (hs : step n pool a = some t) :
    ∃ launched', exec (Launch.step n) launched (launching pool a).toList = some launched' ∧
      List.Forall₂ Launches t launched' := by
  cases move_of_step hs with
  | condition k p hp hplace =>
    obtain ⟨q, hq, hlaunches⟩ := exists_of_forall₂ h hp
    have hqplace : q.place = .condition := by rw [hlaunches.place, hplace]; rfl
    obtain ⟨hi, hpid⟩ := hlaunches.same (by simp [Launch.Process.Done, hqplace])
    refine ⟨launched.set k (q.condition n), ?_, forall₂_set h k ?_⟩
    · simp [launching, exec, Launch.step, hq, hqplace]
    · unfold Process.condition Launch.Process.condition
      rw [hi]
      split_ifs
      · exact ⟨rfl, fun _ => ⟨rfl, hpid⟩⟩
      · exact ⟨rfl, fun hnot => absurd (Or.inl rfl) hnot⟩
  | forked k p hp hplace hmax =>
    obtain ⟨q, hq, hlaunches⟩ := exists_of_forall₂ h hp
    have hqplace : q.place = .fork := by rw [hlaunches.place, hplace]; rfl
    obtain ⟨hi, hpid⟩ := hlaunches.same (by simp [Launch.Process.Done, hqplace])
    have hlt := (List.getElem?_eq_some_iff.mp hp).1
    have hpos : (0 : ℤ) < pool.length := by omega
    refine ⟨launched.set k (q.forked pool.length) ++ [q.forked 0], ?_,
      List.rel_append (forall₂_set h k ?_) (.cons ?_ .nil)⟩
    · have hnew : q.i < Launch.maxPids ∧ pool ≠ [] :=
        ⟨hi ▸ hmax, List.ne_nil_of_mem (List.mem_of_getElem? hp)⟩
      simp [launching, exec, Launch.step, hq, hqplace, hnew]
    · rw [p.forked_of_ne hpos.ne', q.forked_pos hpos, hi, hpid]
      exact ⟨rfl, fun _ => ⟨rfl, rfl⟩⟩
    · rw [Process.child_eq, q.forked_zero, hi, hpid]
      exact ⟨rfl, fun _ => ⟨rfl, rfl⟩⟩
  | refused k p hp hplace => exact absurd rfl (hfork k)
  | execvp k ok p hp hplace =>
    obtain ⟨q, hq, hlaunches⟩ := exists_of_forall₂ h hp
    have hqplace : q.place = .execvp := by rw [hlaunches.place, hplace]; rfl
    obtain ⟨hi, hpid⟩ := hlaunches.same (by simp [Launch.Process.Done, hqplace])
    refine ⟨launched.set k (q.execvp ok), ?_, forall₂_set h k ?_⟩
    · simp [launching, exec, Launch.step, hq, hqplace]
    · cases ok with
      | true => exact ⟨rfl, fun hnot => absurd (Or.inr rfl) hnot⟩
      | false => exact ⟨rfl, fun _ => ⟨congrArg (· + 1) hi, hpid⟩⟩
  | exit k p hp hplace =>
    refine ⟨launched, rfl, launches_rest h hp ?_ (by rw [hplace]; rfl)⟩
    rw [hplace]
    exact Or.inr rfl
  | reaps k j p q e hp hplace hi hq hzombie hparent hawaits =>
    have hjk : j ≠ k := by
      rintro rfl
      obtain rfl := Option.some.inj (hp.symm.trans hq)
      cases hplace.symm.trans hzombie
    have hreaped : (Place.reaped e).launch = q.place.launch := by
      rw [hzombie]
      cases e <;> rfl
    have hdone : q.place.launch = .past ∨ q.place.launch = .replaced := by
      rw [hzombie]
      cases e with
      | exited => exact Or.inr rfl
      | returned => exact Or.inl rfl
    refine ⟨launched, rfl, launches_rest (launches_rest h hq hdone hreaped) (p := p) ?_ ?_ rfl⟩
    · rwa [List.getElem?_set_ne hjk]
    · rw [hplace]
      exact Or.inl rfl
  | noChild k p hp hplace hi hnone =>
    refine ⟨launched, rfl, launches_rest h hp ?_ rfl⟩
    rw [hplace]
    exact Or.inl rfl
  | report k p hp hplace hi =>
    refine ⟨launched, rfl, launches_rest h hp ?_ (by rw [hplace]; rfl)⟩
    rw [hplace]
    exact Or.inl rfl

/-- These steps of the launching loop lead to the processes of the pool. -/
def Launched (n : ℕ) (pid : ℕ → ℤ) (pool : List Process) (es : List Launch.Action) : Prop :=
  ∃ launched, exec (Launch.step n) (Launch.initial pid) es = some launched ∧
    List.Forall₂ Launches pool launched

theorem launched_run (h : exec (step n) (initial pid) acts = some pool)
    (hfork : ∀ k, Action.fork k false ∉ acts) :
    Launched n pid pool (observe (step n) launching (initial pid) acts) := by
  have hinit : Launched n pid (initial pid) [] := ⟨_, rfl, .cons ⟨rfl, fun _ => ⟨rfl, rfl⟩⟩ .nil⟩
  refine observe_invariant_of_mem (I := Launched n pid) ?_ hinit h
  rintro s es t a ha ⟨launched, hlaunched, hall⟩ hs
  obtain ⟨launched', hstep, hall'⟩ := launches_step hall (fun k heq => hfork k (heq ▸ ha)) hs
  exact ⟨launched', by rw [exec_append, hlaunched]; exact hstep, hall'⟩

theorem execvp_of_mem_observe {s : List Process} {k : ℕ} {ok : Bool}
    (h : Launch.Action.execvp k ok ∈ observe (step n) launching s acts) :
    Action.execvp k ok ∈ acts := by
  obtain ⟨u, a, ha, hlaunching⟩ := exists_of_mem_observe h
  cases a with
  | execvp j ok' =>
    obtain ⟨rfl, rfl⟩ := Launch.Action.execvp.inj (Option.some.inj hlaunching)
    exact ha
  | _ => simp [launching] at hlaunching

end CIS415.Thv1
