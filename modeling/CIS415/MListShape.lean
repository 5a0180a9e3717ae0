import CIS415.MListAgree

/-!
# The representation invariant of a hash table

In every list that `ml_create` and any calls of `ml_add` have built, the chains of the buckets are
finite and disjoint, an entry is in the bucket of its hash value, no two entries are equal, and no
bucket holds more than one entry beyond the number of buckets. The last point survives a `resize`
because a bucket of the new table draws from one bucket of the old table only.
-/

namespace CIS415.MList

open Pointer MEntry

variable {nodes : Heap Bucket} {ml : MList} {t : Table} {chain : ℕ → List Addr} {p e : MEntryPtr}
  {j : ℕ}

/-- The hash value in the doubled table determines the one in the old table. -/
theorem meHash_mul_two_mod (me : MEntry) (size : ℕ) :
    meHash me (size * 2) % size = meHash me size :=
  Nat.mod_mul_right_mod _ size 2

namespace Table

def Bounded (t : Table) : Prop :=
  ∀ j, (t.bucket j).length ≤ t.size + 1

/-- The new bucket draws from one bucket of the old table only. -/
theorem WellFormed.moved_eq (h : WellFormed t) (j : ℕ) :
    t.moved j =
      (t.bucket (j % t.size)).filter fun e => decide (meHash e.deref (t.size * 2) = j) := by
  have hi : j % t.size ∈ List.range t.size := List.mem_range.mpr (Nat.mod_lt _ h.pos)
  have hother : ∀ i ∈ List.range t.size, i ≠ j % t.size →
      (t.bucket i).filter (fun e => decide (meHash e.deref (t.size * 2) = j)) = [] := by
    intro i _ hne
    rw [List.filter_eq_nil_iff]
    intro e he hj
    apply hne
    rw [← h.hash i e he, ← meHash_mul_two_mod, of_decide_eq_true hj]
  obtain ⟨pre, post, hsplit⟩ := List.append_of_mem hi
  have hnodup : (pre ++ j % t.size :: post).Nodup := hsplit ▸ List.nodup_range
  have hpre : j % t.size ∉ pre := fun hmem =>
    (List.nodup_append.mp hnodup).2.2 _ hmem _ List.mem_cons_self rfl
  have hpost : j % t.size ∉ post := (List.nodup_cons.mp (List.nodup_append.mp hnodup).2.1).1
  rw [moved, entries, List.filter_flatMap, hsplit, List.flatMap_append, List.flatMap_cons,
    List.flatMap_eq_nil_iff.mpr, List.flatMap_eq_nil_iff.mpr, List.nil_append, List.append_nil]
  · intro i hmem
    exact hother i (hsplit ▸ by simp [hmem]) fun he => hpost (he ▸ hmem)
  · intro i hmem
    exact hother i (hsplit ▸ by simp [hmem]) fun he => hpre (he ▸ hmem)

theorem WellFormed.moved_length_le (h : WellFormed t) (j : ℕ) :
    (t.moved j).length ≤ (t.bucket (j % t.size)).length := by
  rw [h.moved_eq]
  exact List.length_filter_le _ _

theorem bounded_empty (n : ℕ) : Bounded (empty n) :=
  fun _ => Nat.zero_le _

theorem bucket_push_length_le (hb : Bounded t) (p : MEntryPtr) (j : ℕ) :
    ((t.push p).bucket j).length ≤ t.size + 2 := by
  by_cases hj : j = meHash p.deref t.size
  · have hle := hb (meHash p.deref t.size)
    rw [hj, bucket_push_self, List.length_append, List.length_singleton]
    omega
  · rw [bucket_push_of_ne t p hj]
    exact (hb j).trans (Nat.le_succ _)

theorem Bounded.push (hb : Bounded t)
    (hle : (t.bucket (meHash p.deref t.size)).length ≤ t.size) : Bounded (t.push p) := by
  intro j
  change ((t.push p).bucket j).length ≤ t.size + 1
  by_cases hj : j = meHash p.deref t.size
  · rw [hj, bucket_push_self, List.length_append, List.length_singleton]
    exact Nat.succ_le_succ hle
  · rw [bucket_push_of_ne t p hj]
    exact hb j

/-- With one the new bucket has lost the last of the entries that came from its old bucket. -/
theorem WellFormed.bounded_grow (h : WellFormed t) (hb : ∀ j, (t.bucket j).length ≤ t.size + 2) :
    Bounded t.grow := by
  intro j
  change (t.moved j).dropLast.length ≤ t.size * 2 + 1
  have hmoved := h.moved_length_le j
  have hold := hb (j % t.size)
  rw [List.length_dropLast]
  omega

theorem WellFormed.bounded_add (h : WellFormed t) (hb : Bounded t) (p : MEntryPtr) :
    Bounded (t.add p) := by
  unfold Table.add
  by_cases hp : (t.lookup p.deref).isSome
  · rw [if_pos hp]
    exact hb
  · rw [if_neg hp]
    by_cases hfull : t.size < (t.bucket (meHash p.deref t.size)).length
    · rw [if_pos hfull]
      exact (h.push (Option.not_isSome_iff_eq_none.mp hp)).bounded_grow (bucket_push_length_le hb p)
    · rw [if_neg hfull]
      exact hb.push (Nat.le_of_not_lt hfull)

theorem specRun_wellFormed_bounded (ops : List Op) :
    WellFormed (Machine.specRun tableStep (empty buckets) ops).2 ∧
      Bounded (Machine.specRun tableStep (empty buckets) ops).2 := by
  refine Machine.specRun_invariant (I := fun t => WellFormed t ∧ Bounded t) ?_
    ⟨wellFormed_empty (by decide), bounded_empty _⟩ ops
  rintro t o ⟨h, hb⟩
  cases o with
  | add p => exact ⟨h.add p, h.bounded_add hb p⟩
  | lookup me => exact ⟨h, hb⟩

end Table

/-- The nodes of bucket `j` whose `next_node` is not NULL. -/
def visible (nodes : Heap Bucket) (chain : ℕ → List Addr) (j : ℕ) : List Addr :=
  (chain j).filter fun a => (nextOf nodes a).isSome

/-- `chain j` are the nodes that the links lead through from `hash[j]`. -/
structure Shape (nodes : Heap Bucket) (ml : MList) (chain : ℕ → List Addr) : Prop where
  table : ∃ hash, ml.hash = some hash ∧ hash.length = ml.size ∧
    ∀ j < ml.size, ∃ p, hash[j]? = some p ∧ Seg (nextOf nodes) (some p) (chain j) none
  alloc : ∀ j < ml.size, ∀ a ∈ chain j, (nodes.load a).isSome
  nodup : ∀ j < ml.size, (chain j).Nodup
  disjoint : ∀ j < ml.size, ∀ k < ml.size, ∀ a, a ∈ chain j → a ∈ chain k → j = k
  hash : ∀ j < ml.size, ∀ a ∈ visible nodes chain j,
    ∃ e, entryOf nodes a = some e ∧ meHash e.deref ml.size = j
  distinct : ∀ j < ml.size, ∀ k < ml.size, ∀ a ∈ visible nodes chain j,
    ∀ b ∈ visible nodes chain k, ∀ d e, entryOf nodes a = some d → entryOf nodes b = some e →
      meCompare d.deref e.deref = 0 → a = b
  bound : ∀ j < ml.size, (visible nodes chain j).length ≤ ml.size + 1

theorem Stores.visible_eq (h : Stores nodes ml t chain) (j : ℕ) :
    visible nodes chain j = (chain j).dropLast :=
  filter_isSome_seg (h.chains.seg j)

theorem Stores.entry_of_visible (h : Stores nodes ml t chain) {a : Addr}
    (ha : a ∈ visible nodes chain j) : ∃ e ∈ t.bucket j, entryOf nodes a = some e := by
  rw [h.visible_eq] at ha
  have hmem : entryOf nodes a ∈ (t.bucket j).map some := h.entries j ▸ List.mem_map_of_mem ha
  obtain ⟨e, he, heq⟩ := List.mem_map.mp hmem
  exact ⟨e, he, heq.symm⟩

/-- The nodes of one bucket that count hold different keys. -/
theorem Stores.visible_inj (h : Stores nodes ml t chain) (hw : t.WellFormed) {a b : Addr}
    {d e : MEntryPtr} (ha : a ∈ visible nodes chain j) (hb : b ∈ visible nodes chain j)
    (hd : entryOf nodes a = some d) (he : entryOf nodes b = some e) (hk : keyOf d = keyOf e) :
    a = b := by
  have hn : ((visible nodes chain j).map fun a => (entryOf nodes a).map keyOf).Nodup := by
    have hmap : (visible nodes chain j).map (fun a => (entryOf nodes a).map keyOf) =
        ((t.bucket j).map keyOf).map some := by
      calc
        (visible nodes chain j).map (fun a => (entryOf nodes a).map keyOf)
            = ((chain j).dropLast.map (entryOf nodes)).map (Option.map keyOf) := by
              rw [h.visible_eq, List.map_map]
              rfl
        _ = ((t.bucket j).map some).map (Option.map keyOf) := by rw [h.entries j]
        _ = ((t.bucket j).map keyOf).map some := by
              rw [List.map_map, List.map_map]
              rfl
    rw [hmap]
    exact (hw.nodup j).map (Option.some_injective _)
  apply List.inj_on_of_nodup_map hn ha hb
  rw [hd, he, Option.map_some, Option.map_some, hk]

theorem Stores.shape (h : Stores nodes ml t chain) (hw : t.WellFormed) (hb : t.Bounded) :
    Shape nodes ml chain where
  table := by
    obtain ⟨hash, hhash, hlen, hheads⟩ := h.heads
    refine ⟨hash, hhash, hlen.trans h.size.symm, ?_⟩
    intro j hj
    have hj' : j < hash.length := by
      rw [hlen, ← h.size]
      exact hj
    have hseg := h.chains.seg j
    rw [← hheads j, List.getElem?_eq_getElem hj'] at hseg
    exact ⟨hash[j], List.getElem?_eq_getElem hj', hseg⟩
  alloc j _ := h.alloc j
  nodup j _ := h.chains.nodup j
  disjoint j _ k _ := h.chains.disjoint j k
  hash j _ a ha := by
    obtain ⟨e, he, hae⟩ := h.entry_of_visible ha
    refine ⟨e, hae, ?_⟩
    rw [h.size]
    exact hw.hash j e he
  distinct j _ k _ a ha b hb d e hd he hcmp := by
    have hk : keyOf d = keyOf e := meCompare_eq_zero.mp hcmp
    obtain ⟨d', hd', had⟩ := h.entry_of_visible ha
    obtain ⟨e', he', hbe⟩ := h.entry_of_visible hb
    obtain rfl := Option.some.inj (had.symm.trans hd)
    obtain rfl := Option.some.inj (hbe.symm.trans he)
    obtain rfl : j = k := by
      rw [← hw.hash j d' hd', ← hw.hash k e' he']
      exact meHash_congr hk t.size
    exact h.visible_inj hw ha hb hd he hk
  bound j _ := by
    have hlen := congrArg List.length (h.entries j)
    rw [List.length_map, List.length_map] at hlen
    rw [h.visible_eq, hlen, h.size]
    exact hb j

/-- Every run of `ml_add` and `ml_lookup` calls on a new list builds a list of this shape. -/
theorem shape_of_run (ops : List Op) :
    ∃ rs m ml chain, run Schedule.always ops = some (rs, m, ml) ∧ Shape m.nodes ml chain := by
  obtain ⟨ml, m, chain, hcreate, hstores, hsched, -⟩ := stores_create
  have h₀ : tableSimulation.rel (m, ml) (.empty buckets) := ⟨chain, hstores, hsched⟩
  obtain ⟨rs, ⟨m', ml'⟩, hrun, -, chain', hstores', -⟩ :=
    tableSimulation.run h₀ (Machine.legal_true _ _ ops)
  obtain ⟨hw, hb⟩ := Table.specRun_wellFormed_bounded ops
  refine ⟨rs, m', ml', chain', ?_, hstores'.shape hw hb⟩
  simp only [run, hcreate, Option.bind_eq_bind, Option.bind_some, hrun]

end CIS415.MList
