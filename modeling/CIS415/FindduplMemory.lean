import CIS415.Finddupl
import CIS415.Lib.Resources

/-!
# What finddupl.c allocates and frees

The program of finddupl.c once more, with the memory of its records: `me_get` allocates a structure and
three strings for each, also when it comes to the end of the file. Allocations succeed. The program is
linked with an implementation of mlist.h. A call that may read the records of the list is taken to read
every record that `ml_destroy` would come to.
-/

namespace CIS415.Finddupl.Memory

open Pointer MEntry Resources

/-- Why a run may stop: a buffer is left, or a link or field that is not there is followed. -/
inductive Crash where
  | outside
  | null
deriving DecidableEq

/-- An implementation of mlist.h whose lists, with their nodes, are the values of `L`: `visible` is what
`ml_lookup` and `ml_add` may read, and `destroy` what `ml_destroy` gives to `me_destroy`, with the number
of nodes that are still allocated after it. -/
structure Lists (L : Type) where
  create : Option L
  lookup : L → MEntry → Option (Option MEntryPtr)
  add : L → MEntryPtr → Option L
  visible : L → Option (List MEntryPtr)
  destroy : L → Option (List MEntryPtr × ℕ)

/-- The state of the loop, with the memory of the records read so far: the strings of the record at
address `n` and the record itself, in the order in which `me_destroy` frees them. -/
structure State (L : Type) where
  ml : L
  entries : ℕ
  blocks : List (List ℕ)

variable {L : Type}

def State.blocksOf (s : State L) (p : MEntryPtr) : List ℕ :=
  (s.blocks[p.addr]?).getD []

/-- `me_get`: the memory it allocates, the entry or NULL, and the rest of the stream. -/
def meGet (fd : List UInt8) : Prog Crash (List ℕ × Option MEntry × List UInt8) := do
  let me ← acquire
  let surname ← acquire
  let zipcode ← acquire
  let full_address ← acquire
  let r ← need .outside (MEntry.meGet fd)
  pure ([surname, zipcode, full_address, me], r)

variable (impl : Lists L)

def readAll (s : State L) (mep : List ℕ) : Prog Crash Unit := do
  let es ← need .null (impl.visible s.ml)
  useAll mep
  useAll (es.flatMap s.blocksOf)

def process (s : State L) (mep : MEntry) (blocks : List ℕ) :
    Prog Crash (List (List UInt8) × State L) := do
  readAll impl s blocks
  match ← need .null (impl.lookup s.ml mep) with
  | none => do
    readAll impl s blocks
    let ml ← need .null (impl.add s.ml ⟨s.entries, mep⟩)
    pure ([], ⟨ml, s.entries + 1, s.blocks ++ [blocks]⟩)
  | some meq => do
    useAll blocks
    useAll (s.blocksOf meq)
    releaseAll blocks
    pure (block mep meq.deref, ⟨s.ml, s.entries + 1, s.blocks ++ [blocks]⟩)

def loop : ℕ → State L → List UInt8 → Prog Crash (List (List UInt8) × State L)
  | 0, _, _ => stop .null
  | fuel + 1, s, fd => do
    match ← meGet fd with
    | (_, none, _) => pure ([], s)
    | (blocks, some mep, fd) => do
      let (out, s) ← process impl s mep blocks
      let (rest, s) ← loop fuel s fd
      pure (out ++ rest, s)

/-- `main` on the opened stream: what it prints, and how many nodes of the list it leaves allocated. -/
def finddupl (fd : List UInt8) : Prog Crash (List (List UInt8) × ℕ) := do
  let ml ← need .null impl.create
  let (out, s) ← loop impl (fd.length + 1) ⟨ml, 0, []⟩ fd
  let (es, nodes) ← need .null (impl.destroy s.ml)
  releaseAll (es.flatMap s.blocksOf)
  pure (out, nodes)

/-- The entries that a list keeps, where `add` may lose some of them, and the nodes that `ml_destroy`
does not come to. -/
structure Keeping (T : Type) where
  entries : T → List MEntryPtr
  lookup : T → MEntry → Option MEntryPtr
  add : T → MEntryPtr → T
  dropped : T → MEntryPtr → List MEntryPtr
  nodes : T → ℕ

/-- The implementation does to its lists what the keeping says, and neither makes up an entry nor keeps
one twice. -/
structure Implements {T : Type} (k : Keeping T) (stores : L → T → Prop) : Prop where
  lookup : ∀ l t e, stores l t → impl.lookup l e = some (k.lookup t e)
  add : ∀ l t p, stores l t → k.lookup t p.deref = none →
    ∃ l', impl.add l p = some l' ∧ stores l' (k.add t p)
  visible : ∀ l t, stores l t → impl.visible l = some (k.entries t)
  destroy : ∀ l t, stores l t → impl.destroy l = some (k.entries t, k.nodes t)
  mem : ∀ l t e q, stores l t → k.lookup t e = some q → q ∈ k.entries t
  perm : ∀ l t p, stores l t → k.lookup t p.deref = none →
    (p :: k.entries t).Perm (k.entries (k.add t p) ++ k.dropped t p)

structure Trace (T : Type) where
  table : T
  lost : ℕ
  count : ℕ

namespace Keeping

variable {T : Type} (k : Keeping T)

def read (u : Trace T) (e : MEntry) : Trace T :=
  match k.lookup u.table e with
  | some _ => { u with count := u.count + 1 }
  | none =>
    ⟨k.add u.table ⟨u.count, e⟩, u.lost + (k.dropped u.table ⟨u.count, e⟩).length, u.count + 1⟩

def printed (u : Trace T) (e : MEntry) : List (List UInt8) :=
  match k.lookup u.table e with
  | some f => block e f.deref
  | none => []

def output (u : Trace T) : List MEntry → List (List UInt8)
  | [] => []
  | e :: es => k.printed u e ++ output (k.read u e) es

theorem read_found {u : Trace T} {e : MEntry} {q : MEntryPtr} (h : k.lookup u.table e = some q) :
    k.read u e = { u with count := u.count + 1 } := by
  rw [read, h]

theorem read_new {u : Trace T} {e : MEntry} (h : k.lookup u.table e = none) :
    k.read u e = ⟨k.add u.table ⟨u.count, e⟩, u.lost + (k.dropped u.table ⟨u.count, e⟩).length,
      u.count + 1⟩ := by
  rw [read, h]

theorem printed_found {u : Trace T} {e : MEntry} {q : MEntryPtr} (h : k.lookup u.table e = some q) :
    k.printed u e = block e q.deref := by
  rw [printed, h]

theorem printed_new {u : Trace T} {e : MEntry} (h : k.lookup u.table e = none) :
    k.printed u e = [] := by
  rw [printed, h]

end Keeping

variable {impl} {T : Type} {k : Keeping T} {stores : L → T → Prop}

/-- The program state follows the trace and holds the memory of the records that are kept, and of those
that were lost. -/
structure Holds (k : Keeping T) (stores : L → T → Prop) (s : State L) (u : Trace T)
    (xs : Multiset ℕ) : Prop where
  stores : stores s.ml u.table
  count : s.entries = u.count
  length_blocks : s.blocks.length = u.count
  four : ∀ ns ∈ s.blocks, ns.length = 4
  addr_lt : ∀ e ∈ k.entries u.table, e.addr < u.count
  memory : ∃ lost : Multiset ℕ, xs = ↑((k.entries u.table).flatMap s.blocksOf) + lost ∧
    lost.card = 4 * u.lost

variable {s : State L} {u : Trace T} {xs : Multiset ℕ} {e : MEntry} {ns : List ℕ} {q : MEntryPtr}

abbrev Never (_ : Crash) : Prop := False

theorem blocksOf_snoc (h : q.addr < s.blocks.length) (ml : L) (n : ℕ) :
    State.blocksOf ⟨ml, n, s.blocks ++ [ns]⟩ q = s.blocksOf q := by
  rw [State.blocksOf, State.blocksOf, List.getElem?_append_left h]

theorem blocksOf_new (h : q.addr = s.blocks.length) (ml : L) (n : ℕ) :
    State.blocksOf ⟨ml, n, s.blocks ++ [ns]⟩ q = ns := by
  rw [State.blocksOf, h]
  simp

theorem length_flatMap_four {f : MEntryPtr → List ℕ} {es : List MEntryPtr}
    (h : ∀ e ∈ es, (f e).length = 4) : (es.flatMap f).length = 4 * es.length := by
  induction es with
  | nil => rfl
  | cons e es ih =>
    obtain ⟨he, hes⟩ := List.forall_mem_cons.mp h
    rw [List.flatMap_cons, List.length_append, he, ih hes, List.length_cons]
    omega

namespace Holds

theorem flatMap_snoc (h : Holds k stores s u xs) (ml : L) (n : ℕ) :
    (k.entries u.table).flatMap (State.blocksOf ⟨ml, n, s.blocks ++ [ns]⟩) =
      (k.entries u.table).flatMap s.blocksOf := by
  refine List.flatMap_congr fun q hq => blocksOf_snoc ?_ ml n
  rw [h.length_blocks]
  exact h.addr_lt q hq

theorem four_snoc (h : Holds k stores s u xs) (hns : ns.length = 4) :
    ∀ ms ∈ s.blocks ++ [ns], ms.length = 4 := by
  intro ms hms
  rcases List.mem_append.mp hms with hms | hms
  · exact h.four ms hms
  · rw [List.mem_singleton.mp hms]
    exact hns

theorem length_snoc (h : Holds k stores s u xs) : (s.blocks ++ [ns]).length = u.count + 1 := by
  rw [List.length_append, List.length_singleton, h.length_blocks]

theorem mem (h : Holds k stores s u xs) (hq : q ∈ k.entries u.table) : ∀ n ∈ s.blocksOf q, n ∈ xs := by
  intro n hn
  obtain ⟨lost, rfl, -⟩ := h.memory
  exact Multiset.mem_add.mpr (Or.inl (List.mem_flatMap.mpr ⟨q, hq, hn⟩))

theorem spec_readAll (himpl : Implements impl k stores) (h : Holds k stores s u xs) :
    Spec Never (↑ns + xs) (readAll impl s ns) fun _ ys => ys = ↑ns + xs := by
  refine Spec.need_bind (himpl.visible _ _ h.stores) ((Spec.useAll fun n hn => ?_).bind ?_)
  · exact Multiset.mem_add.mpr (Or.inl hn)
  · rintro _ _ rfl
    refine Spec.useAll fun n hn => Multiset.mem_add.mpr (Or.inr ?_)
    obtain ⟨q, hq, hn⟩ := List.mem_flatMap.mp hn
    exact h.mem hq n hn

theorem found (h : Holds k stores s u xs) (hns : ns.length = 4) (hfound : k.lookup u.table e = some q) :
    Holds k stores ⟨s.ml, s.entries + 1, s.blocks ++ [ns]⟩ (k.read u e) xs := by
  obtain ⟨lost, hxs, hcard⟩ := h.memory
  rw [k.read_found hfound]
  refine ⟨h.stores, congrArg (· + 1) h.count, h.length_snoc, h.four_snoc hns, ?_, lost, ?_, hcard⟩
  · exact fun p hp => Nat.lt_succ_of_lt (h.addr_lt p hp)
  · rw [h.flatMap_snoc]
    exact hxs

/-- A record with a new key comes into the list, which may lose some. -/
theorem kept (himpl : Implements impl k stores) (h : Holds k stores s u xs) (hns : ns.length = 4)
    (hnone : k.lookup u.table e = none) {ml : L} (hml : stores ml (k.add u.table ⟨u.count, e⟩)) :
    Holds k stores ⟨ml, s.entries + 1, s.blocks ++ [ns]⟩ (k.read u e) (↑ns + xs) := by
  obtain ⟨lost, rfl, hcard⟩ := h.memory
  have hperm := himpl.perm s.ml u.table ⟨u.count, e⟩ h.stores hnone
  have haddr : ∀ p ∈ k.entries (k.add u.table ⟨u.count, e⟩) ++ k.dropped u.table ⟨u.count, e⟩,
      p.addr < u.count + 1 := by
    intro p hp
    rcases List.mem_cons.mp (hperm.mem_iff.mpr hp) with rfl | hp
    · exact Nat.lt_succ_self u.count
    · exact Nat.lt_succ_of_lt (h.addr_lt p hp)
  have hfresh : State.blocksOf ⟨ml, s.entries + 1, s.blocks ++ [ns]⟩ ⟨u.count, e⟩ = ns :=
    blocksOf_new h.length_blocks.symm ml _
  have hfour : ∀ p ∈ k.dropped u.table ⟨u.count, e⟩,
      (State.blocksOf ⟨ml, s.entries + 1, s.blocks ++ [ns]⟩ p).length = 4 := by
    intro p hp
    have hlt := haddr p (List.mem_append_right _ hp)
    have hlength : (s.blocks ++ [ns]).length = u.count + 1 := h.length_snoc
    rw [← hlength] at hlt
    rw [State.blocksOf, List.getElem?_eq_getElem hlt]
    exact h.four_snoc hns _ (List.getElem_mem hlt)
  have hsplit := Multiset.coe_eq_coe.mpr
    (hperm.flatMap_right (State.blocksOf ⟨ml, s.entries + 1, s.blocks ++ [ns]⟩))
  rw [List.flatMap_cons, List.flatMap_append, hfresh, h.flatMap_snoc, ← Multiset.coe_add,
    ← Multiset.coe_add] at hsplit
  rw [k.read_new hnone]
  refine ⟨hml, congrArg (· + 1) h.count, h.length_snoc, h.four_snoc hns,
    fun p hp => haddr p (List.mem_append_left _ hp),
    ↑((k.dropped u.table ⟨u.count, e⟩).flatMap
      (State.blocksOf ⟨ml, s.entries + 1, s.blocks ++ [ns]⟩)) + lost, ?_, ?_⟩
  · rw [← add_assoc, hsplit, add_assoc]
  · rw [Multiset.card_add, hcard, Multiset.coe_card, length_flatMap_four hfour]
    dsimp only
    omega

end Holds

theorem spec_process (himpl : Implements impl k stores) (h : Holds k stores s u xs)
    (hns : ns.length = 4) (e : MEntry) :
    Spec Never (↑ns + xs) (process impl s e ns) fun r ys =>
      r.1 = k.printed u e ∧ Holds k stores r.2 (k.read u e) ys := by
  refine (h.spec_readAll himpl).bind ?_
  rintro _ _ rfl
  refine Spec.need_bind (himpl.lookup _ _ e h.stores) ?_
  cases hfound : k.lookup u.table e with
  | none =>
    obtain ⟨ml, hadd, hml⟩ := himpl.add s.ml u.table ⟨u.count, e⟩ h.stores hfound
    rw [← h.count] at hadd
    refine (h.spec_readAll himpl).bind ?_
    rintro _ _ rfl
    exact Spec.need_bind hadd (Spec.pure ⟨(k.printed_new hfound).symm, h.kept himpl hns hfound hml⟩)
  | some q =>
    have hq := himpl.mem s.ml u.table e q h.stores hfound
    refine (Spec.useAll fun n hn => Multiset.mem_add.mpr (Or.inl hn)).bind ?_
    rintro _ _ rfl
    refine (Spec.useAll fun n hn => Multiset.mem_add.mpr (Or.inr (h.mem hq n hn))).bind ?_
    rintro _ _ rfl
    refine (Spec.releaseAll ns).bind ?_
    rintro _ _ rfl
    exact Spec.pure ⟨(k.printed_found hfound).symm, h.found hns hfound⟩

theorem spec_meGet {fd : List UInt8} {r : Option MEntry × List UInt8} (h : MEntry.meGet fd = some r) :
    Spec Never xs (meGet fd) fun p ys => p.1.length = 4 ∧ p.2 = r ∧ ys = ↑p.1 + xs := by
  refine Spec.acquire.bind ?_
  rintro me _ rfl
  refine Spec.acquire.bind ?_
  rintro surname _ rfl
  refine Spec.acquire.bind ?_
  rintro zipcode _ rfl
  refine Spec.acquire.bind ?_
  rintro full_address _ rfl
  refine Spec.need_bind h (Spec.pure ⟨rfl, rfl, ?_⟩)
  simp only [← Multiset.cons_coe, Multiset.coe_nil, Multiset.cons_add, zero_add]
  rw [Multiset.cons_swap full_address zipcode, Multiset.cons_swap full_address surname,
    Multiset.cons_swap zipcode surname]

/-- At the end of the file the four blocks of the last call of `me_get` are left over. -/
theorem spec_loop (himpl : Implements impl k stores) (h : Holds k stores s u xs) (rs : List Record)
    {fuel : ℕ} (hfuel : rs.length < fuel) :
    Spec Never xs (loop impl fuel s (rs.flatMap Record.bytes)) fun r ys =>
      r.1 = k.output u (rs.map Record.entry) ∧ ∃ zs last,
        Holds k stores r.2 ((rs.map Record.entry).foldl k.read u) zs ∧ last.card = 4 ∧
          ys = zs + last := by
  induction rs generalizing s u xs fuel with
  | nil =>
    obtain ⟨fuel, rfl⟩ := Nat.exists_eq_succ_of_ne_zero (Nat.ne_zero_of_lt hfuel)
    refine (spec_meGet meGet_nil).bind ?_
    rintro ⟨ns, _⟩ _ ⟨hns, rfl, rfl⟩
    exact Spec.pure ⟨rfl, xs, ↑ns, h, hns, add_comm _ _⟩
  | cons r rs ih =>
    obtain ⟨fuel, rfl⟩ := Nat.exists_eq_succ_of_ne_zero (Nat.ne_zero_of_lt hfuel)
    rw [List.flatMap_cons]
    refine (spec_meGet (meGet_record r _)).bind ?_
    rintro ⟨ns, _⟩ _ ⟨hns, rfl, rfl⟩
    refine (spec_process himpl h hns r.entry).bind ?_
    rintro ⟨out, s'⟩ ys ⟨hout, hs'⟩
    refine (ih hs' (Nat.lt_of_succ_lt_succ hfuel)).bind ?_
    rintro ⟨rest, s''⟩ zs ⟨hrest, hzs⟩
    refine Spec.pure ⟨?_, hzs⟩
    rw [List.map_cons, Keeping.output]
    exact congrArg₂ (· ++ ·) hout hrest

/-- The program prints what the keeping asks for, and leaves behind the memory of the records that were
lost and four blocks more, and the nodes that `ml_destroy` does not come to. -/
theorem spec_finddupl (himpl : Implements impl k stores) {l₀ : L} {t₀ : T}
    (hcreate : impl.create = some l₀) (h₀ : stores l₀ t₀) (hempty : k.entries t₀ = [])
    (rs : List Record) :
    Spec Never 0 (finddupl impl (rs.flatMap Record.bytes)) fun r ys =>
      r = (k.output ⟨t₀, 0, 0⟩ (rs.map Record.entry),
        k.nodes ((rs.map Record.entry).foldl k.read ⟨t₀, 0, 0⟩).table) ∧
        ys.card = 4 * (((rs.map Record.entry).foldl k.read ⟨t₀, 0, 0⟩).lost + 1) := by
  have hstart : Holds k stores ⟨l₀, 0, []⟩ ⟨t₀, 0, 0⟩ 0 := by
    refine ⟨h₀, rfl, rfl, fun _ hns => absurd hns List.not_mem_nil, fun p hp => ?_, 0, ?_, rfl⟩
    · rw [hempty] at hp
      exact absurd hp List.not_mem_nil
    · rw [hempty]
      rfl
  refine Spec.need_bind hcreate ?_
  refine (spec_loop himpl hstart rs (Nat.lt_succ_of_le (length_le_bytes rs))).bind ?_
  rintro ⟨out, s⟩ _ ⟨hout, zs, last, hs, hlast, rfl⟩
  refine Spec.need_bind (himpl.destroy _ _ hs.stores) ?_
  obtain ⟨lost, rfl, hlost⟩ := hs.memory
  rw [add_assoc]
  refine (Spec.releaseAll _).bind ?_
  rintro _ _ rfl
  refine Spec.pure ⟨congrArg (·, _) hout, ?_⟩
  rw [Multiset.card_add, hlost, hlast]
  omega

end CIS415.Finddupl.Memory
