import CIS415.Thv1Launch
import Mathlib.Data.List.Nodup
import Mathlib.Data.List.Perm.Basic
import Mathlib.Data.List.Range

/-!
# What thv1.c reports

Every run comes to an end, whatever `fork` and `execvp` do. The original process reports, last of all,
and so does every process whose `execvp` has failed; each of them has waited for all its children. Where
no `fork` fails and no `execvp` succeeds, that makes `2 ^ nprocesses` reports.
-/

namespace CIS415.Thv1

open System
open Launch (maxPids)
open Thv2 (awaits)

variable {n j k m : ℕ} {p p' q : Process} {pool pool' : List Process} {a : Action} {acts : List Action}
  {pid : ℕ → ℤ} {b : Place → Bool}

def Place.returned : Place → Bool
  | .zombie .returned => true
  | .reaped .returned => true
  | _ => false

/-- The process is in a loop of `main` or has returned from it. -/
def Place.main : Place → Bool
  | .execvp => false
  | .command => false
  | .zombie .exited => false
  | .reaped .exited => false
  | _ => true

theorem Place.ended_of_not_waitable {place : Place} (h : place.waitable = false) :
    place.ended = true := by
  cases place with
  | reaped e => rfl
  | _ => cases h

theorem Place.returned_iff {place : Place} :
    place.returned = true ↔ place.ended = true ∧ place.main = true := by
  cases place with
  | zombie e => cases e <;> simp [Place.returned, Place.ended, Place.main]
  | reaped e => cases e <;> simp [Place.returned, Place.ended, Place.main]
  | _ => simp [Place.returned, Place.ended]

theorem not_owes_of_ended (h : p.place.ended = true) : ¬ p.Owes n m := by
  unfold Process.Owes
  split <;> simp_all [Place.ended]

/-- A process that has ended has waited for all its children. -/
theorem Family.not_waitable (h : Family n pool) (hp : pool[k]? = some p) (hended : p.place.ended = true)
    (hq : pool[j]? = some q) (hparent : q.parent = some k) : q.place.waitable = false := by
  by_contra hw
  obtain ⟨r, m, hr, howes, -⟩ := h.owed j q k hq hparent (by simpa using hw)
  obtain rfl := Option.some.inj (hp.symm.trans hr)
  exact not_owes_of_ended hended howes

/-- When the original has ended, all others have, and have been waited for. -/
theorem Family.all_reaped (h : Family n pool) (hp : pool[0]? = some p)
    (hended : p.place.ended = true) (hj : 0 < j) (hq : pool[j]? = some q) :
    q.place.waitable = false := by
  induction j using Nat.strongRecOn generalizing q with
  | _ j ih =>
    cases hparent : q.parent with
    | none =>
      have hzero := h.lineage j q hq
      rw [hparent] at hzero
      exact absurd hzero (Nat.ne_of_gt hj)
    | some k =>
      have hkj := h.parent_lt hq hparent
      rcases Nat.eq_zero_or_pos k with rfl | hk
      · exact h.not_waitable hp hended hq hparent
      · have hlt : k < pool.length := Nat.lt_trans hkj (List.getElem?_eq_some_iff.mp hq).1
        have hr : pool[k]? = some pool[k] := List.getElem?_eq_getElem hlt
        have hreaped := ih k hkj hk hr
        exact h.not_waitable hr (Place.ended_of_not_waitable hreaped) hq hparent

theorem Family.finished (h : Family n pool) (hp : pool[0]? = some p) (hended : p.place.ended = true) :
    Finished pool := by
  intro q hq
  obtain ⟨j, hj⟩ := List.mem_iff_getElem?.mp hq
  rcases Nat.eq_zero_or_pos j with rfl | hpos
  · rwa [← Option.some.inj (hp.symm.trans hj)]
  · exact Place.ended_of_not_waitable (h.all_reaped hp hended hpos hj)

/-- The last process that has not ended can go on: its children have all ended. -/
theorem Family.progress (h : Family n pool) (hn : n ≤ maxPids) (hfin : ¬ Finished pool) (ok : Bool) :
    ∃ a : Action, a.answer.getD ok = ok ∧ (step n pool a).isSome := by
  have hbusy : ∃ p ∈ pool, ¬ p.place.ended = true := by
    simpa only [Finished, not_forall, exists_prop] using hfin
  obtain ⟨k, p, hp, hrun, hlater⟩ := exists_last hbusy
  cases hplace : p.place with
  | condition => exact ⟨.condition k, rfl, by simp [step, hp, hplace]⟩
  | fork =>
    have hmax : p.i < maxPids := Nat.lt_of_lt_of_le (h.lt_of_fork hp hplace) hn
    exact ⟨.fork k ok, rfl, by simp [step, hp, hplace, hmax]⟩
  | execvp => exact ⟨.execvp k ok, rfl, by simp [step, hp, hplace]⟩
  | command => exact ⟨.exit k, rfl, by simp [step, hp, hplace]⟩
  | wait =>
    by_cases hi : p.i < n
    · cases hhas : hasChild k (p.pid p.i) pool with
      | false => exact ⟨.waitpid k none, rfl, by simp [step, waitpid, hp, hplace, hi, hhas]⟩
      | true =>
        obtain ⟨j, q, hq, hparent, hawaits, hw⟩ := hasChild_iff.mp hhas
        have hended := hlater j q (h.parent_lt hq hparent) hq
        obtain ⟨e, hzombie⟩ : ∃ e, q.place = .zombie e := by
          cases hqplace : q.place with
          | zombie e => exact ⟨e, rfl⟩
          | reaped e =>
            rw [hqplace] at hw
            cases hw
          | _ => simp [hqplace, Place.ended] at hended
        exact ⟨.waitpid k (some j), rfl,
          by simp [step, waitpid, hp, hplace, hi, hq, hzombie, hparent, hawaits]⟩
    · exact ⟨.report k, rfl, by simp [step, hp, hplace, Nat.le_of_not_lt hi]⟩
  | zombie e => exact absurd (by rw [hplace]; rfl) hrun
  | reaped e => exact absurd (by rw [hplace]; rfl) hrun

theorem not_finished_of_running {place : Place} (hp : pool[k]? = some p) (hplace : p.place = place)
    (hrun : place.ended = false) : ¬ Finished pool := by
  intro hfin
  have hended := hfin p (List.mem_of_getElem? hp)
  rw [hplace, hrun] at hended
  cases hended

theorem not_finished_of_step (h : step n pool a = some pool') : ¬ Finished pool := by
  cases move_of_step h with
  | condition k p hp hplace => exact not_finished_of_running hp hplace rfl
  | forked k p hp hplace hmax => exact not_finished_of_running hp hplace rfl
  | refused k p hp hplace => exact not_finished_of_running hp hplace rfl
  | execvp k ok p hp hplace => exact not_finished_of_running hp hplace rfl
  | exit k p hp hplace => exact not_finished_of_running hp hplace rfl
  | reaps k j p q e hp hplace hi hq hzombie hparent hawaits =>
    exact not_finished_of_running hp hplace rfl
  | noChild k p hp hplace hi hnone => exact not_finished_of_running hp hplace rfl
  | report k p hp hplace hi => exact not_finished_of_running hp hplace rfl

theorem eq_nil_of_finished (h : Finished pool) (hex : exec (step n) pool acts = some pool') :
    acts = [] := by
  cases acts with
  | nil => rfl
  | cons a acts =>
    obtain ⟨u, hu, -⟩ := exec_cons_eq_some hex
    exact absurd h (not_finished_of_step hu)

def Holds (b : Place → Bool) (pool : List Process) (k : ℕ) : Prop :=
  ∃ p, pool[k]? = some p ∧ b p.place = true

theorem holds_set (hp : pool[k]? = some p) :
    Holds b (pool.set k p') j ↔ if j = k then b p'.place = true else Holds b pool j := by
  unfold Holds
  split_ifs with hjk
  · subst hjk
    simp [List.getElem?_set_self (List.getElem?_eq_some_iff.mp hp).1]
  · rw [List.getElem?_set_ne (Ne.symm hjk)]

theorem holds_set_of_eq (hp : pool[k]? = some p) (h : b p'.place = b p.place) :
    Holds b (pool.set k p') j ↔ Holds b pool j := by
  rw [holds_set hp]
  split_ifs with hjk
  · subst hjk
    rw [h, Holds]
    simp [hp]
  · rfl

theorem holds_append (h : b q.place = false) : Holds b (pool ++ [q]) j ↔ Holds b pool j := by
  constructor
  · rintro ⟨r, hr, hb⟩
    rcases getElem?_concat_eq_some hr with hr | ⟨-, rfl⟩
    · exact ⟨r, hr, hb⟩
    · exact absurd (h.symm.trans hb) Bool.false_ne_true
  · rintro ⟨r, hr, hb⟩
    exact ⟨r, by rwa [List.getElem?_append_left (List.getElem?_eq_some_iff.mp hr).1], hb⟩

/-- Who has reported and whose `execvp` has failed shows in the places of the processes. -/
structure Recorded (pool : List Process) (acts : List Action) : Prop where
  original : Holds Place.main pool 0
  reported : ∀ k, k ∈ reporters acts ↔ Holds Place.returned pool k
  failed : ∀ k, k ∈ failures acts ↔ 0 < k ∧ Holds Place.main pool k
  once : (reporters acts).Nodup ∧ (failures acts).Nodup

theorem reporters_append (acts : List Action) (a : Action) :
    reporters (acts ++ [a]) = reporters acts ++ a.reporter.toList := by
  rw [reporters, List.filterMap_append]
  cases h : a.reporter <;> simp [h, reporters]

theorem failures_append (acts : List Action) (a : Action) :
    failures (acts ++ [a]) = failures acts ++ a.failed.toList := by
  rw [failures, List.filterMap_append]
  cases h : a.failed <;> simp [h, failures]

theorem Recorded.quiet (h : Recorded pool acts)
    (hmain : ∀ j, Holds Place.main pool' j ↔ Holds Place.main pool j)
    (hret : ∀ j, Holds Place.returned pool' j ↔ Holds Place.returned pool j)
    (hreporter : a.reporter = none) (hfailed : a.failed = none) : Recorded pool' (acts ++ [a]) := by
  refine ⟨(hmain 0).mpr h.original, ?_, ?_, ?_⟩
  · intro j
    rw [reporters_append, hreporter, Option.toList_none, List.append_nil, hret]
    exact h.reported j
  · intro j
    rw [failures_append, hfailed, Option.toList_none, List.append_nil, hmain]
    exact h.failed j
  · rw [reporters_append, hreporter, failures_append, hfailed, Option.toList_none, List.append_nil,
      List.append_nil]
    exact h.once

theorem Recorded.set (h : Recorded pool acts) (hp : pool[k]? = some p)
    (hmain : p'.place.main = p.place.main) (hret : p'.place.returned = p.place.returned)
    (hreporter : a.reporter = none) (hfailed : a.failed = none) :
    Recorded (pool.set k p') (acts ++ [a]) :=
  h.quiet (fun _ => holds_set_of_eq hp hmain) (fun _ => holds_set_of_eq hp hret) hreporter hfailed

theorem Recorded.fails (h : Recorded pool acts) (hp : pool[k]? = some p)
    (hplace : p.place = .execvp) :
    Recorded (pool.set k (p.execvp false)) (acts ++ [.execvp k false]) := by
  have hnot : ¬ Holds Place.main pool k := by
    rintro ⟨r, hr, hmain⟩
    rw [← Option.some.inj (hp.symm.trans hr), hplace] at hmain
    cases hmain
  have hk : k ≠ 0 := by
    rintro rfl
    exact hnot h.original
  have hnew : k ∉ failures acts := fun hmem => hnot ((h.failed k).mp hmem).2
  refine ⟨?_, ?_, ?_, ?_⟩
  · rw [holds_set hp, if_neg (Ne.symm hk)]
    exact h.original
  · intro j
    rw [reporters_append, holds_set_of_eq hp (by rw [hplace]; rfl)]
    simpa [Action.reporter] using h.reported j
  · intro j
    rw [failures_append, holds_set hp]
    split_ifs with hjk
    · subst hjk
      exact iff_of_true (List.mem_append_right _ (List.mem_singleton_self j))
        ⟨Nat.pos_of_ne_zero hk, rfl⟩
    · simpa [Action.failed, hjk] using h.failed j
  · rw [reporters_append, failures_append]
    refine ⟨by simpa [Action.reporter] using h.once.1, ?_⟩
    exact List.concat_eq_append.symm ▸ h.once.2.concat hnew

theorem Recorded.reports (h : Recorded pool acts) (hp : pool[k]? = some p) (hplace : p.place = .wait) :
    Recorded (pool.set k { p with place := .zombie .returned }) (acts ++ [.report k]) := by
  have hnot : ¬ Holds Place.returned pool k := by
    rintro ⟨r, hr, hret⟩
    rw [← Option.some.inj (hp.symm.trans hr), hplace] at hret
    cases hret
  have hnew : k ∉ reporters acts := fun hmem => hnot ((h.reported k).mp hmem)
  have hmain : ∀ j, Holds Place.main (pool.set k { p with place := .zombie .returned }) j ↔
      Holds Place.main pool j := fun j => holds_set_of_eq hp (by rw [hplace]; rfl)
  refine ⟨(hmain 0).mpr h.original, ?_, ?_, ?_⟩
  · intro j
    rw [reporters_append, holds_set hp]
    split_ifs with hjk
    · subst hjk
      exact iff_of_true (List.mem_append_right _ (List.mem_singleton_self j)) rfl
    · simpa [Action.reporter, hjk] using h.reported j
  · intro j
    rw [failures_append, hmain]
    simpa [Action.failed] using h.failed j
  · rw [reporters_append, failures_append]
    refine ⟨?_, by simpa [Action.failed] using h.once.2⟩
    exact List.concat_eq_append.symm ▸ h.once.1.concat hnew

theorem recorded_step (h : Recorded pool acts) (hs : step n pool a = some pool') :
    Recorded pool' (acts ++ [a]) := by
  cases move_of_step hs with
  | condition k p hp hplace =>
    unfold Process.condition
    split_ifs with hi
    · exact h.set hp (by rw [hplace]; rfl) (by rw [hplace]; rfl) rfl rfl
    · exact h.set hp (by rw [hplace]; rfl) (by rw [hplace]; rfl) rfl rfl
  | forked k p hp hplace hmax =>
    have hlt := (List.getElem?_eq_some_iff.mp hp).1
    rw [p.forked_of_ne (by omega), Process.child_eq]
    refine h.quiet (fun j => ?_) (fun j => ?_) rfl rfl
    · exact (holds_append rfl).trans (holds_set_of_eq hp (by rw [hplace]; rfl))
    · exact (holds_append rfl).trans (holds_set_of_eq hp (by rw [hplace]; rfl))
  | refused k p hp hplace =>
    rw [p.forked_of_ne (by decide)]
    exact h.set hp (by rw [hplace]; rfl) (by rw [hplace]; rfl) rfl rfl
  | execvp k ok p hp hplace =>
    cases ok with
    | true => exact h.set hp (by rw [hplace]; rfl) (by rw [hplace]; rfl) rfl rfl
    | false => exact h.fails hp hplace
  | exit k p hp hplace => exact h.set hp (by rw [hplace]; rfl) (by rw [hplace]; rfl) rfl rfl
  | reaps k j p q e hp hplace hi hq hzombie hparent hawaits =>
    have hjk : j ≠ k := by
      rintro rfl
      obtain rfl := Option.some.inj (hp.symm.trans hq)
      cases hplace.symm.trans hzombie
    have hp' : (pool.set j { q with place := .reaped e })[k]? = some p := by
      rwa [List.getElem?_set_ne hjk]
    have hsame : ∀ {b : Place → Bool} {i : ℕ}, b (.reaped e) = b (.zombie e) →
        (Holds b ((pool.set j { q with place := .reaped e }).set k p.waited) i ↔ Holds b pool i) := by
      intro b i hb
      have hwaited : b p.waited.place = b p.place := rfl
      rw [holds_set_of_eq hp' hwaited]
      exact holds_set_of_eq hq (hb.trans (by rw [hzombie]))
    refine h.quiet (fun i => hsame ?_) (fun i => hsame ?_) rfl rfl
    · cases e <;> rfl
    · cases e <;> rfl
  | noChild k p hp hplace hi hnone => exact h.set hp rfl rfl rfl rfl
  | report k p hp hplace hi => exact h.reports hp hplace

theorem recorded_initial : Recorded (initial pid) [] where
  original := ⟨_, rfl, rfl⟩
  reported k := by
    refine iff_of_false List.not_mem_nil ?_
    rintro ⟨p, hp, hret⟩
    obtain ⟨-, rfl⟩ := eq_of_initial hp
    cases hret
  failed k := by
    refine iff_of_false List.not_mem_nil ?_
    rintro ⟨hk, p, hp, -⟩
    exact absurd (eq_of_initial hp).1 (Nat.ne_of_gt hk)
  once := ⟨List.nodup_nil, List.nodup_nil⟩

theorem recorded_run (h : exec (step n) (initial pid) acts = some pool) : Recorded pool acts :=
  history_invariant (I := Recorded) (fun _ _ _ _ hI hs => recorded_step hI hs) recorded_initial h

theorem getLast_of_report (h : exec (step n) (initial pid) acts = some pool)
    (hmem : 0 ∈ reporters acts) : acts.getLast? = some (.report 0) := by
  obtain ⟨a, ha, hreporter⟩ := List.mem_filterMap.mp hmem
  have hreport : a = .report 0 := by
    cases a with
    | report k =>
      obtain rfl := Option.some.inj hreporter
      rfl
    | _ => cases hreporter
  subst hreport
  obtain ⟨before, after, rfl⟩ := List.append_of_mem ha
  rw [List.append_cons, exec_append] at h
  obtain ⟨u, hu, hafter⟩ := Option.bind_eq_some_iff.mp h
  have hzero : 0 ∈ reporters (before ++ [.report 0]) := by
    rw [reporters_append]
    exact List.mem_append_right _ (List.mem_singleton_self 0)
  obtain ⟨p, hp, hret⟩ := ((recorded_run hu).reported 0).mp hzero
  have hfin : Finished u := (family_run hu).finished hp (Place.returned_iff.mp hret).1
  obtain rfl := eq_nil_of_finished hfin hafter
  rw [List.getLast?_concat]

theorem returned_iff_main {k : ℕ} (hfin : Finished pool) :
    Holds Place.returned pool k ↔ Holds Place.main pool k := by
  constructor
  · rintro ⟨p, hp, hret⟩
    exact ⟨p, hp, (Place.returned_iff.mp hret).2⟩
  · rintro ⟨p, hp, hmain⟩
    exact ⟨p, hp, Place.returned_iff.mpr ⟨hfin p (List.mem_of_getElem? hp), hmain⟩⟩

theorem Recorded.reporters_perm (h : Recorded pool acts) (hfin : Finished pool) :
    (reporters acts).Perm (0 :: failures acts) := by
  have hnew : 0 ∉ failures acts := fun hmem =>
    absurd ((h.failed 0).mp hmem).1 (Nat.lt_irrefl 0)
  refine (List.perm_ext_iff_of_nodup h.once.1 (List.nodup_cons.mpr ⟨hnew, h.once.2⟩)).mpr fun k => ?_
  rw [h.reported, returned_iff_main hfin, List.mem_cons, h.failed]
  rcases Nat.eq_zero_or_pos k with rfl | hk
  · exact iff_of_true h.original (Or.inl rfl)
  · exact ⟨fun hmain => Or.inr ⟨hk, hmain⟩, fun hor => (hor.resolve_left (Nat.ne_of_gt hk)).2⟩

theorem Recorded.reporters_length (h : Recorded pool acts)
    (hret : ∀ p ∈ pool, p.place.returned = true) : (reporters acts).length = pool.length := by
  have hperm : (reporters acts).Perm (List.range pool.length) := by
    refine (List.perm_ext_iff_of_nodup h.once.1 List.nodup_range).mpr fun k => ?_
    rw [h.reported, List.mem_range]
    constructor
    · rintro ⟨p, hp, -⟩
      exact (List.getElem?_eq_some_iff.mp hp).1
    · intro hk
      exact ⟨pool[k], List.getElem?_eq_getElem hk, hret _ (List.getElem_mem hk)⟩
  rw [hperm.length_eq, List.length_range]

theorem Place.launch_of_ended {place : Place} (h : place.ended = true) :
    place.launch = .past ∧ place.returned = true ∨ place.launch = .replaced := by
  cases place with
  | zombie e =>
    cases e with
    | exited => exact Or.inr rfl
    | returned => exact Or.inl ⟨rfl, rfl⟩
  | reaped e =>
    cases e with
    | exited => exact Or.inr rfl
    | returned => exact Or.inl ⟨rfl, rfl⟩
  | _ => cases h

theorem settled_of_finished {launched : List Launch.Process} (hfin : Finished pool)
    (h : List.Forall₂ Launches pool launched) : Launch.Settled launched := by
  intro q hq
  obtain ⟨k, hk⟩ := List.mem_iff_getElem?.mp hq
  obtain ⟨p, hp, hlaunches⟩ := exists_of_forall₂ h.flip hk
  rw [Launch.Process.Done, hlaunches.place]
  exact (Place.launch_of_ended (hfin p (List.mem_of_getElem? hp))).imp_left And.left

theorem reports_of_every_execvp_fails (h : exec (step n) (initial pid) acts = some pool)
    (hfin : Finished pool) (hfork : ∀ k, Action.fork k false ∉ acts)
    (hexecvp : ∀ k, Action.execvp k true ∉ acts) : (reporters acts).length = 2 ^ n := by
  obtain ⟨launched, hlaunched, hall⟩ := launched_run h hfork
  have hno : ∀ k, Launch.Action.execvp k true ∉ observe (step n) launching (initial pid) acts :=
    fun k hk => hexecvp k (execvp_of_mem_observe hk)
  have hreplaced := Launch.place_ne_replaced hlaunched hno
  have hpast : ∀ q ∈ launched, q.place = .past := fun q hq =>
    (settled_of_finished hfin hall q hq).resolve_right (hreplaced q hq)
  rw [← Launch.pool_length_of_every_execvp_fails hlaunched hno hpast, ← hall.length_eq]
  refine (recorded_run h).reporters_length fun p hp => ?_
  obtain ⟨k, hk⟩ := List.mem_iff_getElem?.mp hp
  obtain ⟨q, hq, hlaunches⟩ := exists_of_forall₂ hall hk
  refine ((Place.launch_of_ended (hfin p hp)).resolve_right fun hrep => ?_).2
  exact hreplaced q (List.mem_of_getElem? hq) (hlaunches.place.trans hrep)

theorem length_of_no_execvp_fails (h : exec (step n) (initial pid) acts = some pool)
    (hfin : Finished pool) (hfork : ∀ k, Action.fork k false ∉ acts)
    (hexecvp : ∀ k, Action.execvp k false ∉ acts) : pool.length = n + 1 := by
  obtain ⟨launched, hlaunched, hall⟩ := launched_run h hfork
  rw [hall.length_eq]
  exact (Launch.launching_run hlaunched fun k hk => hexecvp k (execvp_of_mem_observe hk)).length_eq
    (settled_of_finished hfin hall)

/-- The original reports last, and where its `execvp` has failed a process reports as well; all of them
after their children have ended. Every run comes to that end. -/
theorem run_reports (hn : n ≤ maxPids) (h : exec (step n) (initial pid) acts = some pool) :
    acts.length + 3 ≤ (n + 5) * 2 ^ n ∧
    (Finished pool ∨ ∀ ok, ∃ a : Action, a.answer.getD ok = ok ∧ (step n pool a).isSome) ∧
    (∀ k ∈ reporters acts, ∀ q ∈ pool, q.parent = some k → q.place.waitable = false) ∧
    (Finished pool → (reporters acts).Nodup ∧ (reporters acts).Perm (0 :: failures acts) ∧
      acts.getLast? = some (.report 0) ∧
      ((∀ k, Action.fork k false ∉ acts) →
        ((∀ k, Action.execvp k false ∉ acts) → pool.length = n + 1) ∧
        ((∀ k, Action.execvp k true ∉ acts) → (reporters acts).length = 2 ^ n))) := by
  have hfamily := family_run h
  have hrecorded := recorded_run h
  refine ⟨run_length_le h, ?_, ?_, ?_⟩
  · by_cases hfin : Finished pool
    · exact Or.inl hfin
    · exact Or.inr (hfamily.progress hn hfin)
  · intro k hk q hq hparent
    obtain ⟨p, hp, hret⟩ := (hrecorded.reported k).mp hk
    obtain ⟨j, hj⟩ := List.mem_iff_getElem?.mp hq
    exact hfamily.not_waitable hp (Place.returned_iff.mp hret).1 hj hparent
  · intro hfin
    have hperm := hrecorded.reporters_perm hfin
    have horiginal : 0 ∈ reporters acts := hperm.mem_iff.mpr List.mem_cons_self
    exact ⟨hrecorded.once.1, hperm, getLast_of_report h horiginal, fun hfork =>
      ⟨length_of_no_execvp_fails h hfin hfork, reports_of_every_execvp_fails h hfin hfork⟩⟩

def failOne : List Action :=
  [.condition 0, .fork 0 true, .condition 0, .execvp 1 false, .condition 1, .waitpid 1 none, .report 1,
    .waitpid 0 (some 1), .report 0]

/-- Two processes report when the command of one cannot be executed. -/
theorem run_reports_one : ∃ pool, exec (step 1) (initial fun _ => 0) failOne = some pool ∧
    Finished pool ∧ (reporters failOne).Perm (0 :: failures failOne) ∧
      failOne.getLast? = some (.report 0) ∧ (reporters failOne).length = 2 ^ 1 := by
  have hsome : (exec (step 1) (initial fun _ => 0) failOne).isSome := rfl
  have hall : (exec (step 1) (initial fun _ => 0) failOne).all fun pool => Finished pool := by decide
  obtain ⟨pool, hpool⟩ := Option.isSome_iff_exists.mp hsome
  rw [hpool] at hall
  have hfin : Finished pool := of_decide_eq_true hall
  obtain ⟨-, hperm, hlast, hdouble⟩ := (run_reports (by decide) hpool).2.2.2 hfin
  have hfork : ∀ k, Action.fork k false ∉ failOne := by simp [failOne]
  have hexecvp : ∀ k, Action.execvp k true ∉ failOne := by simp [failOne]
  exact ⟨pool, hpool, hfin, hperm, hlast, (hdouble hfork).2 hexecvp⟩

end CIS415.Thv1
