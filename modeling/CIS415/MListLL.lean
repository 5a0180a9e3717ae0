import CIS415.MList
import CIS415.Lib.Linked

/-!
# The singly linked list of mlistLL.c

The other implementation of mlist.h. The newest entry comes first; `mlLookup` compares the argument
with each entry in that order.
-/

namespace CIS415

open Pointer MEntry

structure MListNode where
  next : Option Addr
  entry : MEntryPtr

structure MListLL where
  first : Option Addr
  last : Option Addr

namespace MListLL

structure Mem where
  nodes : Heap MListNode
  sched : Schedule

def mlCreate (m : Mem) : Option MListLL × Mem :=
  (if m.sched 0 then some ⟨none, none⟩ else none, { m with sched := m.sched.rest })

/-- The loop of `ml_lookup`, which runs at most `fuel` times; the inner `none` is NULL. -/
def lookupFrom (nodes : Heap MListNode) (me : MEntry) : ℕ → Option Addr → Option (Option MEntryPtr)
  | 0, _ => none
  | fuel + 1, q =>
    match q with
    | none => some none
    | some q => do
      let n ← nodes.load q
      if meCompare me n.entry.deref = 0 then some (some n.entry)
      else lookupFrom nodes me fuel n.next

def mlLookup (m : Mem) (ml : MListLL) (me : MEntry) : Option (Option MEntryPtr) :=
  lookupFrom m.nodes me (m.nodes.brk + 1) ml.first

def mlAdd (m : Mem) (ml : MListLL) (me : MEntryPtr) : Option (ℤ × MListLL × Mem) := do
  match ← mlLookup m ml me.deref with
  | some _ => some (1, ml, m)
  | none =>
    if m.sched 0 then
      let (q, nodes) := m.nodes.malloc ⟨ml.first, me⟩
      let last := if ml.last = none then some q else ml.last
      some (1, ⟨some q, last⟩, ⟨nodes, m.sched.rest⟩)
    else some (0, ml, { m with sched := m.sched.rest })

def destroyFrom : ℕ → Option Addr → Heap MListNode → Option (List MEntryPtr × Heap MListNode)
  | 0, _, _ => none
  | fuel + 1, q, nodes =>
    match q with
    | none => some ([], nodes)
    | some q => do
      let n ← nodes.load q
      let nodes ← nodes.free q
      let (es, nodes) ← destroyFrom fuel n.next nodes
      some (n.entry :: es, nodes)

def mlDestroy (m : Mem) (ml : MListLL) : Option (List MEntryPtr × Heap MListNode) :=
  destroyFrom (m.nodes.brk + 1) ml.first m.nodes

def step (s : Mem × MListLL) : MList.Op → Option (MList.Ret × (Mem × MListLL))
  | .add me => (mlAdd s.1 s.2 me).map fun r => (.value r.1, r.2.2, r.2.1)
  | .lookup me => (mlLookup s.1 s.2 me.deref).map fun e => (.entry e, s)

def run (sched : Schedule) (ops : List MList.Op) : Option (List MList.Ret × (Mem × MListLL)) := do
  let (ml, m) := mlCreate ⟨Heap.empty, sched⟩
  Machine.run step (m, ← ml) ops

variable {m : Mem} {ml : MListLL} {l : List MEntryPtr} {as : List Addr}

def nextOf (nodes : Heap MListNode) : Addr → Option Addr :=
  nodes.field MListNode.next

def entryOf (nodes : Heap MListNode) : Addr → Option MEntryPtr :=
  nodes.field fun n => some n.entry

/-- The list stores the entries `l` in the nodes `as`. -/
structure Stores (m : Mem) (ml : MListLL) (as : List Addr) (l : List MEntryPtr) : Prop where
  seg : Seg (nextOf m.nodes) ml.first as none
  nodup : as.Nodup
  entries : as.map (entryOf m.nodes) = l.map some
  sched : m.sched = Schedule.always

theorem isSome_of_entry {nodes : Heap MListNode} (h : as.map (entryOf nodes) = l.map some) :
    ∀ a ∈ as, (nodes.load a).isSome := by
  intro a ha
  have hmem : entryOf nodes a ∈ l.map some := by
    rw [← h]
    exact List.mem_map_of_mem ha
  obtain ⟨e, -, he⟩ := List.mem_map.mp hmem
  exact Heap.isSome_of_field he.symm

theorem lookupFrom_seg {nodes : Heap MListNode} {q : Option Addr} {fuel : ℕ} (me : MEntry)
    (h : Seg (nextOf nodes) q as none) (hl : as.map (entryOf nodes) = l.map some)
    (hfuel : as.length < fuel) :
    lookupFrom nodes me fuel q = some (l.find? fun e => decide (meCompare me e.deref = 0)) := by
  induction as generalizing q l fuel with
  | nil =>
    obtain ⟨fuel, rfl⟩ := Nat.exists_eq_succ_of_ne_zero (Nat.ne_zero_of_lt hfuel)
    obtain rfl : q = none := h
    obtain rfl := List.map_eq_nil_iff.mp hl.symm
    rfl
  | cons a as ih =>
    obtain ⟨fuel, rfl⟩ := Nat.exists_eq_succ_of_ne_zero (Nat.ne_zero_of_lt hfuel)
    obtain ⟨rfl, hseg⟩ := h
    cases l with
    | nil => cases hl
    | cons e l =>
      rw [List.map_cons, List.map_cons, List.cons.injEq] at hl
      obtain ⟨n, hn, he⟩ := Heap.load_of_field hl.1
      obtain rfl : n.entry = e := Option.some.inj he
      have hnext : nextOf nodes a = n.next := Heap.field_of_load hn _
      have hrest := ih (hnext ▸ hseg) hl.2 (Nat.lt_of_succ_lt_succ hfuel)
      by_cases hcmp : meCompare me n.entry.deref = 0
      · simp [lookupFrom, hn, hcmp]
      · simp [lookupFrom, hn, hcmp, hrest]

def listLookup (l : List MEntryPtr) (me : MEntry) : Option MEntryPtr :=
  l.find? fun e => decide (meCompare me e.deref = 0)

def listAdd (l : List MEntryPtr) (me : MEntryPtr) : List MEntryPtr :=
  if (listLookup l me.deref).isSome then l else me :: l

theorem mlLookup_spec (h : Stores m ml as l) (me : MEntry) :
    mlLookup m ml me = some (listLookup l me) := by
  have hlen := Heap.length_le_brk m.nodes h.nodup (isSome_of_entry h.entries)
  exact lookupFrom_seg me h.seg h.entries (Nat.lt_succ_of_le hlen)

theorem mlAdd_spec (h : Stores m ml as l) (me : MEntryPtr) :
    ∃ ml' m' as', mlAdd m ml me = some (1, ml', m') ∧ Stores m' ml' as' (listAdd l me) := by
  have hlookup := mlLookup_spec h me.deref
  cases hfound : listLookup l me.deref with
  | some e =>
    refine ⟨ml, m, as, ?_, ?_⟩
    · simp only [mlAdd, hlookup, hfound, Option.bind_eq_bind, Option.bind_some]
    · rw [listAdd, hfound]
      exact h
  | none =>
    have hs : m.sched 0 = true := by rw [h.sched]; rfl
    have hbrk : m.nodes.brk ∉ as := by
      intro hmem
      have hsome := isSome_of_entry h.entries _ hmem
      rw [Heap.load_brk] at hsome
      cases hsome
    have hnext : nextOf (m.nodes.malloc ⟨ml.first, me⟩).2 =
        Function.update (nextOf m.nodes) m.nodes.brk ml.first :=
      m.nodes.field_malloc _ _
    have hentry : entryOf (m.nodes.malloc ⟨ml.first, me⟩).2 =
        Function.update (entryOf m.nodes) m.nodes.brk (some me) :=
      m.nodes.field_malloc _ _
    refine ⟨⟨some m.nodes.brk, if ml.last = none then some m.nodes.brk else ml.last⟩,
      ⟨(m.nodes.malloc ⟨ml.first, me⟩).2, m.sched.rest⟩, m.nodes.brk :: as, ?_, ?_⟩
    · simp only [mlAdd, hlookup, hfound, hs, Option.bind_eq_bind, Option.bind_some, if_true]
      rfl
    · rw [listAdd, hfound]
      refine ⟨⟨rfl, ?_⟩, List.nodup_cons.mpr ⟨hbrk, h.nodup⟩, ?_, ?_⟩
      · rw [hnext, Function.update_self, seg_update hbrk]
        exact h.seg
      · rw [hentry]
        change Function.update (entryOf m.nodes) m.nodes.brk (some me) m.nodes.brk :: _ =
          some me :: l.map some
        rw [Function.update_self, ← h.entries]
        congr 1
        apply List.map_congr_left
        intro a ha
        apply Function.update_of_ne
        rintro rfl
        exact hbrk ha
      · change m.sched.rest = _
        rw [h.sched]
        rfl

theorem destroyFrom_seg {nodes : Heap MListNode} {q : Option Addr} {fuel : ℕ}
    (h : Seg (nextOf nodes) q as none) (hn : as.Nodup) (hl : as.map (entryOf nodes) = l.map some)
    (hfuel : as.length < fuel) : ∃ nodes', destroyFrom fuel q nodes = some (l, nodes') := by
  induction as generalizing q l fuel nodes with
  | nil =>
    obtain ⟨fuel, rfl⟩ := Nat.exists_eq_succ_of_ne_zero (Nat.ne_zero_of_lt hfuel)
    obtain rfl : q = none := h
    obtain rfl := List.map_eq_nil_iff.mp hl.symm
    exact ⟨nodes, rfl⟩
  | cons a as ih =>
    obtain ⟨fuel, rfl⟩ := Nat.exists_eq_succ_of_ne_zero (Nat.ne_zero_of_lt hfuel)
    obtain ⟨rfl, hseg⟩ := h
    obtain ⟨ha, hn⟩ := List.nodup_cons.mp hn
    cases l with
    | nil => cases hl
    | cons e l =>
      rw [List.map_cons, List.map_cons, List.cons.injEq] at hl
      obtain ⟨n, hload, he⟩ := Heap.load_of_field hl.1
      obtain rfl : n.entry = e := Option.some.inj he
      have hnext : nextOf nodes a = n.next := Heap.field_of_load hload _
      obtain ⟨nodes₁, hfree, hload₁, -⟩ := Heap.free_spec hload
      have hother : ∀ b ∈ as, nodes₁.load b = nodes.load b := by
        intro b hb
        have hne : b ≠ a := by
          rintro rfl
          exact ha hb
        rw [hload₁, Function.update_of_ne hne]
      have hseg₁ : Seg (nextOf nodes₁) n.next as none := by
        refine (seg_congr fun b hb => ?_).mpr (hnext ▸ hseg)
        rw [nextOf, Heap.field, hother b hb]
        rfl
      have hentries₁ : as.map (entryOf nodes₁) = l.map some := by
        rw [← hl.2]
        refine List.map_congr_left fun b hb => ?_
        rw [entryOf, Heap.field, hother b hb]
        rfl
      obtain ⟨nodes', hrest⟩ := ih hseg₁ hn hentries₁ (Nat.lt_of_succ_lt_succ hfuel)
      exact ⟨nodes', by simp [destroyFrom, hload, hfree, hrest]⟩

theorem mlDestroy_spec (h : Stores m ml as l) : ∃ nodes', mlDestroy m ml = some (l, nodes') := by
  have hlen := Heap.length_le_brk m.nodes h.nodup (isSome_of_entry h.entries)
  exact destroyFrom_seg h.seg h.nodup h.entries (Nat.lt_succ_of_le hlen)

end MListLL

end CIS415
