import CIS415.FindduplMemory
import CIS415.MListCount
import CIS415.MListKeys

/-!
# finddupl.c with the hash table

mlist.c keeps the entries of its table. A resize loses some of them, and it takes nodes out of the table
without freeing them. Without the memory of its records the program is that of `Finddupl.finddupl`, which
therefore prints what the table asks for.
-/

namespace CIS415.Finddupl.Memory

open Pointer MEntry MList Resources

variable {t : Table} {p : MEntryPtr}

def hashed (sched : Schedule) : Lists (Mem × MList) where
  create := do
    let (ml, m) ← mlCreate (.initial sched)
    some (m, ← ml)
  lookup l me := mlLookup l.1 l.2 me
  add l me := (mlAdd l.1 l.2 me).map fun r => (r.2.2, r.2.1)
  visible l := (destroyBuckets l.2 (List.range l.2.size) l.1.nodes).map Prod.fst
  destroy l := (mlDestroy l.1 l.2).map fun r => (r.1, r.2.nodes.cells.card)

/-- The entries that `resize` loses when `me` has been added. -/
def dropped (t : Table) (me : MEntryPtr) : List MEntryPtr :=
  if t.size < (t.bucket (meHash me.deref t.size)).length then
    (t.push me).entries.filter fun e => decide ((t.push me).Dropped e)
  else []

/-- The nodes that `resize` takes out of the table when `me` has been added: the last one of each old
bucket, and the one that each new bucket had before the first entry came to it. -/
def strayed (t : Table) (me : MEntryPtr) : ℕ :=
  if t.size < (t.bucket (meHash me.deref t.size)).length then t.size + (dropped t me).length else 0

def tables : Keeping (Table × ℕ) where
  entries t := t.1.entries
  lookup t := t.1.lookup
  add t me := (t.1.add me, t.2 + strayed t.1 me)
  dropped t := dropped t.1
  nodes := Prod.snd

structure StoresTable (l : Mem × MList) (t : Table × ℕ) : Prop where
  stores : ∃ chain, Stores l.1.nodes l.2 t.1 chain
  sched : l.1.sched = Schedule.always
  size : l.1.size = t.1.size
  wellFormed : t.1.WellFormed
  nodes : l.1.nodes.cells.card = t.1.entries.length + t.1.size + t.2

theorem entries_add_perm (h : t.WellFormed) (hnone : t.lookup p.deref = none) :
    (p :: t.entries).Perm ((t.add p).entries ++ dropped t p) := by
  have hpush := (h.entries_push hnone).symm
  rw [Table.add_of_lookup_none hnone, dropped]
  split_ifs
  · exact hpush.trans (h.push hnone).entries_grow
  · rw [List.append_nil]
    exact hpush

/-- A resize leaves behind as many nodes as the old table had buckets, and one for each entry it loses. -/
theorem nodes_add {l : Mem × MList} {u : Table × ℕ} {ml : MList} {m : Mem} {chain : ℕ → List Addr}
    (h : StoresTable l u) (hnone : u.1.lookup p.deref = none)
    (hadd : mlAdd l.1 l.2 p = some (1, ml, m)) (hstores : Stores m.nodes ml (u.1.add p) chain) :
    m.nodes.cells.card = (u.1.add p).entries.length + (u.1.add p).size + (u.2 + strayed u.1 p) := by
  obtain ⟨chain₀, hold⟩ := h.stores
  have hlookup := mlLookup_spec hold p.deref
  rw [hnone] at hlookup
  have hcells := card_cells_mlAdd h.sched hlookup hadd
  have hlength := (entries_add_perm h.wellFormed hnone).length_eq
  rw [List.length_cons, List.length_append] at hlength
  rw [h.nodes, hstores.size, hold.size] at hcells
  rw [hcells, strayed]
  by_cases hfull : u.1.size < (u.1.bucket (meHash p.deref u.1.size)).length
  · have hsize : (u.1.add p).size = u.1.size * 2 := by
      rw [Table.add_of_lookup_none hnone, if_pos hfull]
      rfl
    have hne : u.1.size * 2 ≠ u.1.size := by
      have hpos := h.wellFormed.pos
      omega
    rw [hsize, if_neg hne, if_pos hfull]
    omega
  · have hsize : (u.1.add p).size = u.1.size := by
      rw [Table.add_of_lookup_none hnone, if_neg hfull]
      rfl
    have hkept : dropped u.1 p = [] := if_neg hfull
    rw [hkept, List.length_nil] at hlength
    rw [hsize, if_pos rfl, if_neg hfull]
    omega

theorem hashed_implements : Implements (hashed Schedule.always) tables StoresTable where
  lookup l t e h := by
    obtain ⟨chain, hstores⟩ := h.stores
    exact mlLookup_spec hstores e
  add l t p h hnone := by
    obtain ⟨chain, hstores⟩ := h.stores
    obtain ⟨ml, m, chain', hadd, hstores', hsched', hsize', -⟩ := mlAdd_spec hstores h.sched p
    refine ⟨(m, ml), ?_, ⟨chain', hstores'⟩, hsched', hsize' h.size, h.wellFormed.add p, ?_⟩
    · exact congrArg (Option.map fun r => (r.2.2, r.2.1)) hadd
    · exact nodes_add h hnone hadd hstores'
  visible l t h := by
    obtain ⟨chain, hstores⟩ := h.stores
    obtain ⟨nodes', hdestroy, -⟩ := destroyBuckets_spec hstores List.nodup_range
      (fun i hi => List.mem_range.mp hi) rfl fun _ _ _ _ => rfl
    change (destroyBuckets l.2 (List.range l.2.size) l.1.nodes).map Prod.fst = _
    rw [hstores.size, hdestroy]
    rfl
  destroy l t h := by
    obtain ⟨chain, hstores⟩ := h.stores
    obtain ⟨m', hdestroy⟩ := mlDestroy_spec hstores h.size
    have hcells := card_cells_mlDestroy hdestroy
    rw [h.nodes, h.size] at hcells
    have hleft : m'.nodes.cells.card = t.2 := by omega
    rw [← show m'.nodes.cells.card = tables.nodes t from hleft]
    exact congrArg (Option.map fun r => (r.1, r.2.nodes.cells.card)) hdestroy
  mem l t e q h hfound := (h.wellFormed.lookup_eq_some.mp hfound).1
  perm l t p h hnone := entries_add_perm h.wellFormed hnone

variable {sched : Schedule} {s : State (Mem × MList)} {s' : Finddupl.State}

structure Same (s : State (Mem × MList)) (s' : Finddupl.State) : Prop where
  ml : s.ml = (s'.m, s'.ml)
  entries : s.entries = s'.entries

theorem silent_readAll (impl : Lists (Mem × MList)) (s : State (Mem × MList)) (ns : List ℕ) :
    Silent Never (readAll impl s ns) :=
  (silent_need not_false _).bind fun _ => (silent_useAll _).bind fun _ => silent_useAll _

theorem forgets_meGet (fd : List UInt8) :
    Forgets Never (fun r r' => r.2 = r') (meGet fd) (MEntry.meGet fd) := by
  rw [← bind_pure (MEntry.meGet fd)]
  refine .skip silent_acquire fun me => .skip silent_acquire fun surname => ?_
  refine .skip silent_acquire fun zipcode => .skip silent_acquire fun full_address => ?_
  refine (Forgets.need_self _ _).bind ?_
  rintro r _ rfl
  exact .pure rfl

theorem forgets_process (h : Same s s') (e : MEntry) (ns : List ℕ) :
    Forgets Never (fun r r' => r.1 = r'.1 ∧ Same r.2 r'.2) (process (hashed sched) s e ns)
      (Finddupl.process s' e) := by
  obtain ⟨ml, entries, blocks⟩ := s
  obtain ⟨rfl, rfl⟩ := h
  refine .skip (silent_readAll _ _ _) fun _ => (Forgets.need_self _ _).bind ?_
  rintro found _ rfl
  cases found with
  | none =>
    refine .skip (silent_readAll _ _ _) fun _ => ?_
    refine (Forgets.need_map _ _ _).bind ?_
    rintro _ r rfl
    exact .pure ⟨rfl, rfl, rfl⟩
  | some meq =>
    refine .skip (silent_useAll _) fun _ => .skip (silent_useAll _) fun _ => ?_
    exact .skip (silent_releaseAll _) fun _ => .pure ⟨rfl, rfl, rfl⟩

theorem forgets_loop (fuel : ℕ) (h : Same s s') (fd : List UInt8) :
    Forgets Never (fun r r' => r.1 = r'.1 ∧ Same r.2 r'.2) (loop (hashed sched) fuel s fd)
      (Finddupl.loop fuel s' fd) := by
  induction fuel generalizing s s' fd with
  | zero => exact .stop not_false
  | succ fuel ih =>
    refine (forgets_meGet fd).bind ?_
    rintro ⟨ns, e, fd⟩ _ rfl
    cases e with
    | none => exact .pure ⟨rfl, h⟩
    | some e =>
      refine (forgets_process h e ns).bind ?_
      rintro ⟨out, s₁⟩ ⟨_, s₁'⟩ ⟨rfl, h₁⟩
      refine (ih h₁ fd).bind ?_
      rintro ⟨rest, s₂⟩ ⟨_, s₂'⟩ ⟨rfl, h₂⟩
      exact .pure ⟨rfl, h₂⟩

theorem forgets_finddupl (sched : Schedule) (fd : List UInt8) :
    Forgets Never (fun r out => r.1 = out) (finddupl (hashed sched) fd) (Finddupl.finddupl sched fd) := by
  have hplain : Finddupl.finddupl sched fd = (hashed sched).create >>= fun l =>
      Finddupl.loop (fd.length + 1) ⟨l.1, l.2, 0⟩ fd >>= fun r =>
        mlDestroy r.2.m r.2.ml >>= fun _ => some r.1 := by
    rw [Finddupl.finddupl, hashed]
    cases mlCreate (.initial sched) with
    | none => rfl
    | some r =>
      obtain ⟨ml, m⟩ := r
      cases ml <;> rfl
  rw [hplain]
  refine (Forgets.need_self _ _).bind ?_
  rintro l _ rfl
  refine (forgets_loop _ ⟨rfl, rfl⟩ fd).bind ?_
  rintro ⟨out, ml, entries, blocks⟩ ⟨_, s'⟩ ⟨rfl, h⟩
  obtain rfl : ml = (s'.m, s'.ml) := h.ml
  refine (Forgets.need_map _ _ _).bind ?_
  rintro _ r rfl
  exact .skip (silent_releaseAll _) fun _ => .pure rfl

def noEntries : Trace (Table × ℕ) :=
  ⟨(.empty buckets, 0), 0, 0⟩

theorem finddupl_ends (rs : List Record) :
    ∃ w, (finddupl (hashed Schedule.always) (rs.flatMap Record.bytes)).run ⟨0, 0, Schedule.always⟩ =
        .ok ((tables.output noEntries (rs.map Record.entry),
          ((rs.map Record.entry).foldl tables.read noEntries).table.2), w) ∧
      w.live.card = 4 * (((rs.map Record.entry).foldl tables.read noEntries).lost + 1) := by
  obtain ⟨ml, m, chain, hcreate, hstores, hsched, hsize⟩ := stores_create
  have hempty : (Table.empty buckets).entries = [] := by simp [Table.entries, Table.empty]
  have hnodes : m.nodes.cells.card = buckets := by
    obtain ⟨nodes', hspec, -⟩ := mlCreate_spec (.initial Schedule.always) rfl
    obtain ⟨-, rfl⟩ := Prod.mk.inj (Option.some.inj (hcreate.symm.trans hspec))
    rw [card_cells_mlCreate hspec]
    change (Heap.empty : Heap Bucket).cells.card + buckets = buckets
    rw [Heap.cells_empty, Finset.card_empty, Nat.zero_add]
  have h₀ : StoresTable (m, ml) noEntries.table := by
    refine ⟨⟨chain, hstores⟩, hsched, hsize, Table.wellFormed_empty (by decide), ?_⟩
    change m.nodes.cells.card = (Table.empty buckets).entries.length + buckets + 0
    rw [hnodes, hempty, List.length_nil, Nat.zero_add, Nat.add_zero]
  have hstart : (hashed Schedule.always).create = some (m, ml) := by
    simp only [hashed, hcreate, Option.bind_eq_bind, Option.bind_some]
  obtain ⟨_, w, hrun, rfl, hcard⟩ :=
    (spec_finddupl hashed_implements hstart h₀ hempty rs).ends (fun _ => not_false)
      (w := ⟨0, 0, Schedule.always⟩) rfl
  exact ⟨w, hrun, hcard⟩

theorem finddupl_output (rs : List Record) :
    Finddupl.finddupl Schedule.always (rs.flatMap Record.bytes) =
      some (tables.output noEntries (rs.map Record.entry)) := by
  obtain ⟨w, hrun, -⟩ := finddupl_ends rs
  obtain ⟨out, hout, rfl⟩ := (forgets_finddupl Schedule.always _).of_run rfl hrun
  exact hout

end CIS415.Finddupl.Memory
