import CIS415.TreeSetSize

/-!
# Iterating over a tree set

`ts_it_create` copies the elements into an array, which `it_next` walks. The array has one slot for each
element as long as the size field is exact, and no call on the set touches it: the iterator answers as
the list of the elements that were stored when it was made, whatever happens to the set meanwhile.
-/

namespace CIS415.TreeSet

open OrderedList Iterator

variable {E : Type}

inductive ItCall where
  | hasNext
  | next

inductive UseCall (E : Type) where
  | set (op : Op E)
  | destroy (uf : Bool)
  | iter (call : ItCall)

def UseCall.iter? : UseCall E → Option ItCall
  | .iter call => some call
  | _ => none

/-- The value of a call on an iterator, and the element it stores. -/
def itStep (it : Iterator E) : ItCall → Option ((ℤ × Option E) × Iterator E)
  | .hasNext => some ((itHasNext it, none), it)
  | .next => (itNext it).map fun r => ((r.1, r.2.1), r.2.2)

/-- The set is `none` once it has been destroyed, and no longer to be used. -/
def useStep : Option (TreeSet E) × Iterator E → UseCall E →
    Option ((Ret E ⊕ ℤ × Option E) × (Option (TreeSet E) × Iterator E))
  | (none, _), .set _ => none
  | (some ts, it), .set op => (step ts op).map fun r => (.inl r.1, some r.2, it)
  | (none, _), .destroy _ => none
  | (some ts, it), .destroy uf => some (.inl { value := 0, calls := tsDestroy ts uf }, none, it)
  | (ts, it), .iter call => (itStep it call).map fun r => (.inr r.1, ts, r.2)

def restStep : List E → ItCall → (ℤ × Option E) × List E
  | [], _ => ((0, none), [])
  | x :: xs, .hasNext => ((1, none), x :: xs)
  | x :: xs, .next => ((1, some x), xs)

/-- The set and the list of what is left, side by side. -/
def useSpec (c : Comparison E) : Option (List E) × List E → UseCall E →
    Option (ℤ × Option E) × (Option (List E) × List E)
  | (l, xs), .set op => (none, l.map fun l => (setStep c l op).2, xs)
  | (_, xs), .destroy _ => (none, none, xs)
  | (l, xs), .iter call => (some (restStep xs call).1, l, (restStep xs call).2)

def Alive : Option (List E) × List E → UseCall E → Prop
  | _, .iter _ => True
  | (l, _), _ => l.isSome

/-- The iterator has delivered `pre` and has `rest` to deliver. -/
def Remaining (it : Iterator E) (rest : List E) : Prop :=
  ∃ pre, it = ⟨pre.length, (pre ++ rest).length, (pre ++ rest).map some⟩

theorem itStep_spec {it : Iterator E} {rest : List E} (h : Remaining it rest) (call : ItCall) :
    ∃ it', itStep it call = some ((restStep rest call).1, it') ∧
      Remaining it' (restStep rest call).2 := by
  obtain ⟨pre, rfl⟩ := h
  cases rest with
  | nil =>
    have hdone : ¬ (pre.length : ℤ) < ((pre ++ []).length : ℕ) := by simp
    refine ⟨_, ?_, pre, rfl⟩
    cases call with
    | hasNext => rw [itStep, itHasNext, if_neg hdone]; rfl
    | next => rw [itStep, itNext, if_neg hdone]; rfl
  | cons x rest =>
    have hlt : (pre.length : ℤ) < ((pre ++ x :: rest).length : ℕ) := by
      rw [List.length_append, List.length_cons]
      omega
    cases call with
    | hasNext =>
      refine ⟨_, ?_, pre, rfl⟩
      rw [itStep, itHasNext, if_pos hlt]
      rfl
    | next =>
      have hget : ((pre ++ x :: rest).map some)[(pre.length : ℤ).toNat]? = some (some x) := by simp
      refine ⟨_, by rw [itStep, itNext, if_pos hlt, hget]; rfl, pre ++ [x], ?_⟩
      simp [restStep]

def useSimulation (c : Comparison E) :
    Machine.Simulation (useStep (E := E)) (useSpec c) Alive where
  rel s a := Option.Rel (Represents c) s.1 a.1 ∧ Remaining s.2 a.2
  obs := Sum.getRight?
  simulates := by
    rintro ⟨ts, it⟩ ⟨l, rest⟩ call ⟨hrep, hrest⟩ halive
    cases call with
    | set op =>
      cases hrep with
      | none => cases halive
      | @some ts l hrep =>
        obtain ⟨ret, ts', hstep, -, hrep'⟩ := (simulation c).simulates ts l op hrep trivial
        exact ⟨.inl ret, (some ts', it), by rw [useStep, hstep]; rfl, rfl, .some hrep', hrest⟩
    | destroy uf =>
      cases hrep with
      | none => cases halive
      | some _ => exact ⟨_, _, rfl, rfl, .none, hrest⟩
    | iter call =>
      obtain ⟨it', hstep, hrest'⟩ := itStep_spec hrest call
      exact ⟨.inr (restStep rest call).1, (ts, it'), by rw [useStep, hstep]; rfl, rfl, hrep, hrest'⟩

/-- Interleaved with any calls on the set, the calls on the iterator are answered from the list `xs`. -/
def Walks (c : Comparison E) (ts : TreeSet E) (it : Iterator E) (xs : List E) : Prop :=
  ∀ calls, Machine.Legal (useSpec c) Alive (some ts.root.inorder, xs) calls →
    ∃ answers s, Machine.run useStep (some ts, it) calls = some (answers, s) ∧
      answers.filterMap Sum.getRight? =
        (Machine.specRun restStep xs (calls.filterMap UseCall.iter?)).1

theorem walks_of_remaining {c : Comparison E} {ts : TreeSet E} {l xs : List E} {it : Iterator E}
    (h : Represents c ts l) (hit : Remaining it xs) : Walks c ts it xs := by
  intro calls hlegal
  rw [h.inorder] at hlegal
  obtain ⟨answers, s, hrun, hanswers, -⟩ :=
    (useSimulation c).run (s := (some ts, it)) ⟨.some h, hit⟩ hlegal
  refine ⟨answers, s, hrun, ?_⟩
  have hcomponent :=
    Machine.specRun_component (useSpec c) restStep Prod.snd UseCall.iter? id ?_ ?_ (some l, xs) calls
  · rw [← hcomponent, ← hanswers, List.filterMap_map]
    rfl
  · rintro ⟨l, xs⟩ (op | uf | call) p hp
    · cases hp
    · cases hp
    · obtain rfl := Option.some.inj hp
      exact ⟨rfl, rfl⟩
  · rintro ⟨l, xs⟩ (op | uf | call) hp
    · exact ⟨rfl, rfl⟩
    · exact ⟨rfl, rfl⟩
    · cases hp

theorem tsItCreate_spec {ts : TreeSet E} (hne : ts.root.inorder ≠ [])
    (hsize : ts.size = ts.root.inorder.length) :
    ∃ it, tsItCreate true ts = some (some it) ∧ Remaining it ts.root.inorder :=
  ⟨_, tsItCreate_exact hne hsize, [], rfl⟩

/-- After any sequence of calls without polls the stored elements form an increasing list, and an
iterator made then yields that list, whatever calls on the set come between those on the iterator. -/
theorem iterator_yields_snapshot (c : Comparison E) (ops : List (Op E))
    (hops : ∀ op ∈ ops, op.isPoll = false) :
    ∃ rets ts, run c.cmp ops = some (rets, ts) ∧
      ts.root.inorder = (Machine.specRun (setStep c) [] ops).2 ∧ c.Increasing ts.root.inorder ∧
      (ts.root.inorder ≠ [] →
        ∃ it, tsItCreate true ts = some (some it) ∧ Walks c ts it ts.root.inorder) := by
  obtain ⟨rets, ts, hrun, -, hrep⟩ := run_represents c ops
  refine ⟨rets, ts, hrun, hrep.inorder, hrep.avl.increasing, fun hne => ?_⟩
  have hnopoll : ∀ pre op, pre ++ [op] <+: ops → op.isPoll → ∀ rets ts,
      run c.cmp pre = some (rets, ts) → ts.root.isNull := by
    intro pre op hpre hpoll
    rw [hops op (hpre.subset (by simp))] at hpoll
    cases hpoll
  obtain ⟨_, _, l, hrun', hrep', hsize⟩ := size_of_polls_empty c hnopoll ops List.prefix_rfl
  obtain ⟨rfl, rfl⟩ := Prod.mk.inj (Option.some.inj (hrun.symm.trans hrun'))
  rw [← hrep'.inorder] at hsize
  obtain ⟨it, hcreate, hit⟩ := tsItCreate_spec hne hsize
  exact ⟨it, hcreate, walks_of_remaining hrep hit⟩

theorem iterator_yields_snapshot_two :
    ∃ rets ts it answers s, run intComparison.cmp [.add 2, .add 1] = some (rets, ts) ∧
      tsItCreate true ts = some (some it) ∧
      Machine.run useStep (some ts, it) [.iter .next, .set (.clear false), .iter .hasNext,
        .destroy false, .iter .next, .iter .next] = some (answers, s) ∧
      answers.filterMap Sum.getRight? = [(1, some 1), (1, none), (1, some 2), (0, none)] := by
  obtain ⟨rets, ts, hrun, hin, -, hit⟩ := iterator_yields_snapshot intComparison [.add 2, .add 1]
    (by decide)
  have hlist : (Machine.specRun (setStep intComparison) [] [.add 2, .add 1]).2 = [1, 2] := by decide
  rw [hin, hlist] at hit
  obtain ⟨it, hcreate, hwalks⟩ := hit (by decide)
  obtain ⟨answers, s, hcalls, hanswers⟩ := hwalks _
    (by simp [Machine.Legal, Alive, useSpec] : Machine.Legal _ _ _ [.iter .next, .set (.clear false),
      .iter .hasNext, .destroy false, .iter .next, .iter .next])
  exact ⟨rets, ts, it, answers, s, hrun, hcreate, hcalls, hanswers⟩

end CIS415.TreeSet
