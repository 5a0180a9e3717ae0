import CIS415.FindduplSpec
import CIS415.MListLL

/-!
# What finddupl.c leaves behind

Linked with mlist.c the program loses the records that the resizes lose, and nodes of the table with them;
linked with mlistLL.c it loses nothing and reports every repetition. With either, it never frees the
memory that `me_get` allocates when it comes to the end of the file.
-/

namespace CIS415.Finddupl.Memory

open Pointer MEntry Resources

/-- Linked with mlist.c, on well-formed records, the program ends with the output it has without its
memory. It reads and frees nothing that it has freed. It leaves behind the memory of the records that the
resizes have lost, and the four blocks that `me_get` allocated at the end of the file; and of the nodes of
the table one for each lost record, and one for each bucket that the table had when it was resized. -/
theorem finddupl_leaks (rs : List Record) :
    ∃ out nodes w, Finddupl.finddupl Schedule.always (rs.flatMap Record.bytes) = some out ∧
      (finddupl (hashed Schedule.always) (rs.flatMap Record.bytes)).run ⟨0, 0, Schedule.always⟩ =
        .ok ((out, nodes), w) ∧
      w.live.card = 4 * ((lostKeys (rs.map Record.entry)).length + 1) ∧
      nodes + MList.buckets = (lostKeys (rs.map Record.entry)).length +
        ((rs.map Record.entry).foldl Finddupl.Trace.read .start).table.size := by
  obtain ⟨w, hrun, hcard⟩ := finddupl_ends rs
  obtain ⟨-, hfollows⟩ := follows_start.output_eq (rs.map Record.entry)
  refine ⟨_, _, w, finddupl_output rs, hrun, ?_, hfollows.nodes⟩
  rw [hcard, hfollows.lost]
  rfl

section

open MListLL

variable {l : List MEntryPtr} {p : MEntryPtr} {e : MEntry} {seen : List MEntry}

def linked (sched : Schedule) : Lists (Mem × MListLL) where
  create := (mlCreate ⟨Heap.empty, sched⟩).1.map fun ml => ((mlCreate ⟨Heap.empty, sched⟩).2, ml)
  lookup l me := mlLookup l.1 l.2 me
  add l me := (mlAdd l.1 l.2 me).map fun r => (r.2.2, r.2.1)
  visible l := (mlDestroy l.1 l.2).map Prod.fst
  destroy l := (mlDestroy l.1 l.2).map fun r => (r.1, r.2.cells.card)

def lists : Keeping (List MEntryPtr) :=
  ⟨id, listLookup, listAdd, fun _ _ => [], fun _ => 0⟩

structure StoresList (l : Mem × MListLL) (es : List MEntryPtr) : Prop where
  stores : ∃ as, Stores l.1 l.2 as es
  nodes : l.1.nodes.cells.card = es.length

theorem listAdd_of_lookup_none (hnone : listLookup l p.deref = none) : listAdd l p = p :: l := by
  rw [listAdd, hnone, Option.isSome_none, if_neg Bool.false_ne_true]

theorem linked_implements : Implements (linked Schedule.always) lists StoresList where
  lookup l t e h := by
    obtain ⟨as, hstores⟩ := h.stores
    exact mlLookup_spec hstores e
  add l t p h hnone := by
    obtain ⟨as, hstores⟩ := h.stores
    obtain ⟨ml, m, as', hadd, hstores'⟩ := mlAdd_spec hstores p
    have hnone : listLookup t p.deref = none := hnone
    have hlookup := mlLookup_spec hstores p.deref
    rw [hnone] at hlookup
    have hcells := card_cells_mlAdd (by rw [hstores.sched]; rfl) hlookup hadd
    refine ⟨(m, ml), ?_, ⟨as', hstores'⟩, ?_⟩
    · exact congrArg (Option.map fun r => (r.2.2, r.2.1)) hadd
    · change m.nodes.cells.card = (listAdd t p).length
      rw [hcells, h.nodes, listAdd_of_lookup_none hnone, List.length_cons]
  visible l t h := by
    obtain ⟨as, hstores⟩ := h.stores
    obtain ⟨nodes', hdestroy⟩ := mlDestroy_spec hstores
    exact congrArg (Option.map Prod.fst) hdestroy
  destroy l t h := by
    obtain ⟨as, hstores⟩ := h.stores
    obtain ⟨nodes', hdestroy⟩ := mlDestroy_spec hstores
    have hcells := card_cells_mlDestroy hdestroy
    rw [h.nodes] at hcells
    have hleft : nodes'.cells.card = lists.nodes t := Nat.add_eq_right.mp hcells
    rw [← hleft]
    exact congrArg (Option.map fun r => (r.1, r.2.cells.card)) hdestroy
  mem l t e q _ hfound := List.mem_of_find?_eq_some hfound
  perm l t p _ hnone := by
    change (p :: t).Perm (listAdd t p ++ [])
    rw [listAdd_of_lookup_none hnone, List.append_nil]

def Firsts (seen : List MEntry) (l : List MEntryPtr) : Prop :=
  ∀ e, (listLookup l e).map MEntryPtr.deref = seen.find? fun f => decide (key f = key e)

theorem Firsts.read {u : Trace (List MEntryPtr)} (h : Firsts seen u.table) (e : MEntry) :
    Firsts (seen ++ [e]) (lists.read u e).table := by
  intro e'
  rw [List.find?_append]
  cases hfound : listLookup u.table e with
  | some q =>
    rw [lists.read_found (u := u) (e := e) hfound, h e']
    by_cases hkey : key e = key e'
    · have hseen := h e
      rw [hfound, hkey] at hseen
      rw [← hseen]
      rfl
    · simp [hkey]
  | none =>
    rw [lists.read_new (u := u) (e := e) hfound]
    have hadd : lists.add u.table ⟨u.count, e⟩ = ⟨u.count, e⟩ :: u.table :=
      listAdd_of_lookup_none (p := ⟨u.count, e⟩) hfound
    rw [hadd, listLookup, List.find?_cons]
    by_cases hkey : key e = key e'
    · have hseen := h e
      rw [hfound, hkey] at hseen
      rw [decide_eq_true (meCompare_eq_zero.mpr hkey.symm), ← hseen]
      simp [hkey]
    · rw [decide_eq_false fun heq => hkey (meCompare_eq_zero.mp heq).symm]
      simp only [List.find?_singleton, hkey, decide_false, Bool.false_eq_true, if_false, Option.or_none]
      exact h e'

theorem Firsts.output_eq (es : List MEntry) {u : Trace (List MEntryPtr)} (h : Firsts seen u.table) :
    lists.output u es = expected seen es ∧ (es.foldl lists.read u).lost = u.lost := by
  induction es generalizing seen u with
  | nil => exact ⟨rfl, rfl⟩
  | cons e es ih =>
    obtain ⟨hout, hlost⟩ := ih (h.read e)
    rw [List.foldl_cons, Keeping.output, expected, hout, hlost, expectedBlock, ← h e]
    cases hfound : listLookup u.table e with
    | some q =>
      rw [lists.printed_found (u := u) (e := e) hfound, lists.read_found (u := u) (e := e) hfound]
      exact ⟨rfl, rfl⟩
    | none =>
      rw [lists.printed_new (u := u) (e := e) hfound, lists.read_new (u := u) (e := e) hfound]
      exact ⟨rfl, rfl⟩

/-- Linked with mlistLL.c, on well-formed records, the program reports every repetition, with the first
record of the same key, and leaves behind the four blocks that `me_get` allocated at the end of the file
and no node of the list. -/
theorem finddupl_linked (rs : List Record) :
    ∃ w, (finddupl (linked Schedule.always) (rs.flatMap Record.bytes)).run ⟨0, 0, Schedule.always⟩ =
        .ok ((expected [] (rs.map Record.entry), 0), w) ∧ w.live.card = 4 := by
  have h₀ : StoresList ((mlCreate ⟨Heap.empty, Schedule.always⟩).2, ⟨none, none⟩) [] :=
    ⟨⟨[], rfl, List.nodup_nil, rfl, rfl⟩, rfl⟩
  have hfirsts : Firsts [] (⟨[], 0, 0⟩ : Trace (List MEntryPtr)).table := fun _ => rfl
  obtain ⟨hout, hlost⟩ := hfirsts.output_eq (rs.map Record.entry)
  obtain ⟨_, w, hrun, rfl, hcard⟩ :=
    (spec_finddupl linked_implements rfl h₀ rfl rs).ends (fun _ => not_false)
      (w := ⟨0, 0, Schedule.always⟩) rfl
  rw [hout] at hrun
  rw [hlost] at hcard
  exact ⟨w, hrun, hcard⟩

end

end CIS415.Finddupl.Memory
