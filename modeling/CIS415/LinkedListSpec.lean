import CIS415.LinkedListNodes

/-!
# The linked list as a sequence

The abstract machine keeps the elements as a list. When the allocations succeed, every sequence of
calls with indices in the range the header asks for answers as that machine does; the nodes then
form a ring that reads the same list in both directions, apart from the free list.
-/

namespace CIS415.LinkedList

open Pointer

variable {E : Type} {ll ll' : LinkedList E} {as fs held : List Addr} {xs ys : List (Option E)}

/-- The sequence operations: what a call hands back and the sequence after it. -/
def listStep : List (Option E) → Op E → Ret E × List (Option E)
  | l, .add e => ({ value := 1 }, l ++ [e])
  | l, .addFirst e => ({ value := 1 }, e :: l)
  | l, .addLast e => ({ value := 1 }, l ++ [e])
  | l, .insert i e => ({ value := 1 }, l.insertIdx i.toNat e)
  | l, .remove i => ({ value := 1, element := l[i.toNat]? }, l.eraseIdx i.toNat)
  | l, .removeFirst => if l = [] then ({}, []) else ({ value := 1, element := l.head? }, l.tail)
  | l, .removeLast =>
    if l = [] then ({}, []) else ({ value := 1, element := l.getLast? }, l.dropLast)
  | l, .set i e => ({ value := 1, element := l[i.toNat]? }, l.set i.toNat e)
  | l, .get i => ({ value := 1, element := l[i.toNat]? }, l)
  | l, .getFirst => if l = [] then ({}, []) else ({ value := 1, element := l.head? }, l)
  | l, .getLast => if l = [] then ({}, []) else ({ value := 1, element := l.getLast? }, l)
  | l, .clear uf => ({ calls := if uf then l else [] }, [])
  | l, .size => ({ value := l.length }, l)
  | l, .toArray => ({ array := some (l, l.length) }, l)

/-- The calls linkedlist.h allows on a list of this length; an empty list has no array. -/
def InRange (l : List (Option E)) : Op E → Prop
  | .insert i _ => 0 ≤ i ∧ i ≤ l.length
  | .remove i => 0 ≤ i ∧ i < l.length
  | .set i _ => 0 ≤ i ∧ i < l.length
  | .get i => 0 ≤ i ∧ i < l.length
  | .toArray => l ≠ []
  | _ => True

structure Holds (ll : LinkedList E) (as fs held : List Addr) (xs : List (Option E)) : Prop where
  shape : Shape ll.nodes ll.freel as fs held
  size : ll.size = as.length
  elements : as.map (elementOf ll.nodes) = xs
  sched : ll.sched = Schedule.always

theorem Holds.ringed (h : Holds ll as fs held xs) : Ringed ll as fs held xs :=
  ⟨h.shape, h.size, h.elements⟩

theorem Ringed.holds (h : Ringed ll as fs held xs) (hs : ll.sched = Schedule.always) :
    Holds ll as fs held xs :=
  ⟨h.shape, h.size, h.elements, hs⟩

theorem Holds.size_eq (h : Holds ll as fs held xs) : ll.size = xs.length :=
  h.ringed.size_eq

/-- The list `ll` stores the sequence `xs`. -/
def Represents (ll : LinkedList E) (xs : List (Option E)) : Prop :=
  ∃ as fs, Holds ll as fs [] xs

theorem Represents.ringed (h : Represents ll xs) :
    ∃ as fs, Ringed ll as fs [] xs ∧ ll.sched = Schedule.always := by
  obtain ⟨as, fs, h⟩ := h
  exact ⟨as, fs, h.ringed, h.sched⟩

theorem Moves.represents (h : Moves ll ll' ys) (hs : ll.sched = Schedule.always) :
    Represents ll' ys := by
  obtain ⟨⟨as, fs, hring⟩, hsched⟩ := h
  exact ⟨as, fs, hring.holds (hsched.trans hs)⟩

theorem Adds.represents {v : ℤ} (h : Adds ll ll' as xs ys v) (hs : ll.sched = Schedule.always) :
    v = 1 ∧ Represents ll' ys := by
  obtain ⟨hv, hs'⟩ := h.always hs
  refine ⟨hv, ?_⟩
  rcases h.ringed with ⟨h0, -⟩ | ⟨-, bs, fs, hring⟩
  · exact absurd (h0.symm.trans hv) (by decide)
  · exact ⟨bs, fs, hring.holds hs'⟩

theorem llAddFirst_spec (h : Represents ll xs) (e : Option E) :
    ∃ ll', llAddFirst ll e = some (1, ll') ∧ Represents ll' (e :: xs) := by
  obtain ⟨as, fs, hring, hs⟩ := h.ringed
  obtain ⟨v, ll', hadd, hadds⟩ := hring.llAddFirst e
  obtain ⟨rfl, h'⟩ := hadds.represents hs
  exact ⟨ll', hadd, h'⟩

theorem llAddLast_spec (h : Represents ll xs) (e : Option E) :
    ∃ ll', llAddLast ll e = some (1, ll') ∧ Represents ll' (xs ++ [e]) := by
  obtain ⟨as, fs, hring, hs⟩ := h.ringed
  obtain ⟨v, ll', hadd, hadds⟩ := hring.llAddLast e
  obtain ⟨rfl, h'⟩ := hadds.represents hs
  exact ⟨ll', hadd, h'⟩

theorem llInsert_spec (h : Represents ll xs) {i : ℤ} (hi : i ≤ xs.length) (e : Option E) :
    ∃ ll', llInsert ll i e = some (1, ll') ∧ Represents ll' (xs.insertIdx i.toNat e) := by
  obtain ⟨as, fs, hring, hs⟩ := h.ringed
  obtain ⟨v, ll', hinsert, hadds⟩ := hring.llInsert hi e
  obtain ⟨rfl, h'⟩ := hadds.represents hs
  exact ⟨ll', hinsert, h'⟩

theorem llRemove_spec (h : Represents ll xs) {i : ℤ} (h0 : 0 ≤ i) (hi : i < xs.length) :
    ∃ ll', llRemove ll i = some (1, xs[i.toNat]?, ll') ∧ Represents ll' (xs.eraseIdx i.toNat) := by
  obtain ⟨as, fs, hring, hs⟩ := h.ringed
  obtain ⟨ll', hremove, hmoves⟩ := hring.llRemove h0 hi
  exact ⟨ll', hremove, hmoves.represents hs⟩

theorem llRemoveFirst_spec (h : Represents ll xs) :
    ∃ ll', (llRemoveFirst ll).map ofOutcome = some ((listStep xs .removeFirst).1, ll') ∧
      Represents ll' (listStep xs .removeFirst).2 := by
  obtain ⟨as, fs, hring, hs⟩ := h.ringed
  obtain ⟨ll', hremove, hmoves⟩ := hring.llRemoveFirst
  refine ⟨ll', ?_, ?_⟩
  · rw [hremove]
    cases xs <;> rfl
  · cases xs <;> exact hmoves.represents hs

theorem llRemoveLast_spec (h : Represents ll xs) :
    ∃ ll', (llRemoveLast ll).map ofOutcome = some ((listStep xs .removeLast).1, ll') ∧
      Represents ll' (listStep xs .removeLast).2 := by
  obtain ⟨as, fs, hring, hs⟩ := h.ringed
  obtain ⟨ll', hremove, hmoves⟩ := hring.llRemoveLast
  refine ⟨ll', ?_, ?_⟩
  · rw [hremove]
    cases xs <;> rfl
  · cases xs <;> exact hmoves.represents hs

theorem llSet_spec (h : Represents ll xs) {i : ℤ} (h0 : 0 ≤ i) (hi : i < xs.length)
    (e : Option E) :
    ∃ ll', llSet ll i e = some (1, xs[i.toNat]?, ll') ∧ Represents ll' (xs.set i.toNat e) := by
  obtain ⟨as, fs, hring, hs⟩ := h.ringed
  obtain ⟨ll', hset, hmoves⟩ := hring.llSet h0 hi e
  exact ⟨ll', hset, hmoves.represents hs⟩

theorem llGet_spec (h : Represents ll xs) {i : ℤ} (h0 : 0 ≤ i) (hi : i < xs.length) :
    llGet ll i = some (1, xs[i.toNat]?, ll) := by
  obtain ⟨as, fs, hring, -⟩ := h.ringed
  exact hring.llGet h0 hi

theorem llGetFirst_spec (h : Represents ll xs) :
    (llGetFirst ll).map ofOutcome = some ((listStep xs .getFirst).1, ll) := by
  obtain ⟨as, fs, hring, -⟩ := h.ringed
  rw [hring.llGetFirst]
  cases xs <;> rfl

theorem llGetLast_spec (h : Represents ll xs) :
    (llGetLast ll).map ofOutcome = some ((listStep xs .getLast).1, ll) := by
  obtain ⟨as, fs, hring, -⟩ := h.ringed
  rw [hring.llGetLast]
  cases xs <;> rfl

theorem llClear_spec (h : Represents ll xs) (uf : Bool) :
    ∃ ll', llClear ll uf = some (if uf then xs else [], ll') ∧ Represents ll' [] := by
  obtain ⟨as, fs, hring, hs⟩ := h.ringed
  obtain ⟨ll', hclear, hmoves⟩ := hring.llClear uf
  exact ⟨ll', hclear, hmoves.represents hs⟩

theorem llToArray_spec (h : Represents ll xs) (hne : xs ≠ []) :
    llToArray ll = some (some (xs, (xs.length : ℤ)), ll) := by
  obtain ⟨as, fs, hring, hs⟩ := h.ringed
  have hgen : genArray ll = some (some xs, ll) := by
    rw [hring.genArray, if_pos ⟨hne, by rw [hs]; rfl⟩, if_neg hne, rest_always hs, ← hs]
  simp only [llToArray, hgen, hring.size_eq, Option.bind_eq_bind, Option.bind_some]

theorem step_spec (ll : LinkedList E) (xs : List (Option E)) (o : Op E) (h : Represents ll xs)
    (ho : InRange xs o) :
    ∃ ret ll', step ll o = some (ret, ll') ∧ ret = (listStep xs o).1 ∧
      Represents ll' (listStep xs o).2 := by
  cases o with
  | add e =>
    obtain ⟨ll', hstep, h'⟩ := llAddLast_spec h e
    exact ⟨_, ll', by rw [step, llAdd, hstep]; rfl, rfl, h'⟩
  | addFirst e =>
    obtain ⟨ll', hstep, h'⟩ := llAddFirst_spec h e
    exact ⟨_, ll', by rw [step, hstep]; rfl, rfl, h'⟩
  | addLast e =>
    obtain ⟨ll', hstep, h'⟩ := llAddLast_spec h e
    exact ⟨_, ll', by rw [step, hstep]; rfl, rfl, h'⟩
  | insert i e =>
    obtain ⟨ll', hstep, h'⟩ := llInsert_spec h ho.2 e
    exact ⟨_, ll', by rw [step, hstep]; rfl, rfl, h'⟩
  | remove i =>
    obtain ⟨ll', hstep, h'⟩ := llRemove_spec h ho.1 ho.2
    exact ⟨_, ll', by rw [step, hstep]; rfl, rfl, h'⟩
  | removeFirst =>
    obtain ⟨ll', hstep, h'⟩ := llRemoveFirst_spec h
    exact ⟨_, ll', hstep, rfl, h'⟩
  | removeLast =>
    obtain ⟨ll', hstep, h'⟩ := llRemoveLast_spec h
    exact ⟨_, ll', hstep, rfl, h'⟩
  | set i e =>
    obtain ⟨ll', hstep, h'⟩ := llSet_spec h ho.1 ho.2 e
    exact ⟨_, ll', by rw [step, hstep]; rfl, rfl, h'⟩
  | get i => exact ⟨_, ll, by rw [step, llGet_spec h ho.1 ho.2]; rfl, rfl, h⟩
  | getFirst =>
    refine ⟨_, ll, llGetFirst_spec h, rfl, ?_⟩
    by_cases hx : xs = [] <;> simpa [listStep, hx] using h
  | getLast =>
    refine ⟨_, ll, llGetLast_spec h, rfl, ?_⟩
    by_cases hx : xs = [] <;> simpa [listStep, hx] using h
  | clear uf =>
    obtain ⟨ll', hstep, h'⟩ := llClear_spec h uf
    exact ⟨_, ll', by rw [step, hstep]; rfl, rfl, h'⟩
  | size =>
    obtain ⟨as, fs, hh⟩ := h
    exact ⟨_, ll, rfl, by rw [llSize, hh.size_eq]; rfl, as, fs, hh⟩
  | toArray => exact ⟨_, ll, by rw [step, llToArray_spec h ho]; rfl, rfl, h⟩

def simulation (E : Type) : Machine.Simulation (step (E := E)) listStep InRange where
  rel := Represents
  obs := id
  simulates := step_spec

theorem llCreate_spec :
    ∃ ll : LinkedList E, llCreate Schedule.always = some ll ∧ Represents ll [] := by
  obtain ⟨ll, hcreate, hring, hs⟩ := llCreate_ringed (E := E) (show Schedule.always 0 = true from rfl)
  exact ⟨ll, hcreate, [], [], hring.holds hs⟩

/-- In the state reached, `next` and `prev` visit the same `size` nodes in opposite orders and
return to the sentinel, and the free list is apart from the ring. -/
theorem run_eq_sequence (ops : List (Op E)) (h : Machine.Legal listStep InRange [] ops) :
    ∃ rs ll as fs, run Schedule.always ops = some (rs, ll) ∧
      rs = (Machine.specRun listStep [] ops).1 ∧
      as.map (elementOf ll.nodes) = (Machine.specRun listStep [] ops).2 ∧
      ll.size = as.length ∧ (sentinel :: as).Nodup ∧
      Seg (nextOf ll.nodes) (nextOf ll.nodes sentinel) as (some sentinel) ∧
      Seg (prevOf ll.nodes) (prevOf ll.nodes sentinel) as.reverse (some sentinel) ∧
      Seg (nextOf ll.nodes) ll.freel fs none ∧ ∀ a ∈ fs, a ∉ sentinel :: as := by
  obtain ⟨ll₀, hcreate, h₀⟩ := llCreate_spec (E := E)
  obtain ⟨rs, ll, hrun, hobs, as, fs, hh⟩ := (simulation E).run h₀ h
  have hn := hh.shape.nodup
  refine ⟨rs, ll, as, fs, ?_, ?_, hh.elements, hh.size, hh.shape.ring.nodup, hh.shape.ring.forward,
    hh.shape.ring.backward, hh.shape.free, ?_⟩
  · simp only [run, hcreate, Option.bind_eq_bind, Option.bind_some, hrun]
  · rw [← hobs]
    exact (List.map_id rs).symm
  · intro a ha hmem
    have hn' := List.nodup_append.mp (show (sentinel :: as ++ (fs ++ [])).Nodup from hn)
    exact hn'.2.2 a hmem a (by simp [ha]) rfl

theorem run_eq_sequence_three :
    Machine.Legal listStep InRange ([] : List (Option ℕ))
        [.add (some 1), .addLast (some 2), .insert 1 (some 3), .remove 0, .toArray] ∧
      ∃ rs ll as fs, run Schedule.always
          [.add (some 1), .addLast (some 2), .insert 1 (some 3), .remove 0, .toArray] =
            some (rs, ll) ∧
        rs = (Machine.specRun listStep []
          [.add (some 1), .addLast (some 2), .insert 1 (some 3), .remove 0, .toArray]).1 ∧
        as.map (elementOf ll.nodes) = [some 3, some 2] ∧
        ll.size = as.length ∧ (sentinel :: as).Nodup ∧
        Seg (nextOf ll.nodes) (nextOf ll.nodes sentinel) as (some sentinel) ∧
        Seg (prevOf ll.nodes) (prevOf ll.nodes sentinel) as.reverse (some sentinel) ∧
        Seg (nextOf ll.nodes) ll.freel fs none ∧ ∀ a ∈ fs, a ∉ sentinel :: as := by
  have hlegal : Machine.Legal listStep InRange ([] : List (Option ℕ))
      [.add (some 1), .addLast (some 2), .insert 1 (some 3), .remove 0, .toArray] := by
    simp [Machine.Legal, InRange, listStep]
  exact ⟨hlegal, run_eq_sequence _ hlegal⟩

end CIS415.LinkedList
