import CIS415.MListDestroy
import CIS415.MListKeys

/-!
# The hash table when allocations fail

`ml_create` returns NULL or a list without a table when one of its first two allocations fails, and
`ml_add` returns 0 when its own fails. Every other failure dereferences NULL. A call that returns
anything else has therefore seen no failure, and has done what it does when all allocations succeed.
-/

namespace CIS415.MList

open Pointer MEntry

variable {nodes : Heap Bucket} {ml ml' : MList} {t : Table} {m m' : Mem} {chain : ℕ → List Addr}
  {me : MEntryPtr} {v : ℤ}

def Mem.granted (m : Mem) : Mem :=
  { m with sched := Schedule.always }

@[simp] theorem Mem.granted_nodes (m : Mem) : m.granted.nodes = m.nodes := rfl

@[simp] theorem Mem.granted_sched (m : Mem) (n : ℕ) : m.granted.sched n = true := rfl

theorem createBuckets_granted {n : ℕ} {ps : List Addr} (h : createBuckets n m = some (ps, m')) :
    createBuckets n m.granted = some (ps, m'.granted) := by
  induction n generalizing m ps with
  | zero =>
    obtain ⟨rfl, rfl⟩ := Prod.mk.inj (Option.some.inj h)
    rfl
  | succ n ih =>
    unfold createBuckets at h
    obtain ⟨-, h⟩ := Option.ite_none_right_eq_some.mp h
    obtain ⟨⟨qs, m₁⟩, hrest, heq⟩ := Option.bind_eq_some_iff.mp h
    obtain ⟨rfl, rfl⟩ := Prod.mk.inj (Option.some.inj heq)
    have hgranted := ih hrest
    unfold createBuckets
    rw [if_pos (show m.granted.sched 0 = true from rfl)]
    exact Option.bind_eq_some_iff.mpr ⟨_, hgranted, rfl⟩

theorem mlCreate_cases {r : Option MList} (h : mlCreate m = some (r, m')) :
    (m'.nodes = m.nodes ∧ m'.size = m.size ∧ (r = none ∨ r = some ⟨m.size, none⟩)) ∨
      mlCreate m.granted = some (r, m'.granted) := by
  unfold mlCreate at h
  by_cases h₀ : m.sched 0
  · rw [if_pos h₀] at h
    by_cases h₁ : m.sched.rest 0
    · rw [if_pos h₁] at h
      obtain ⟨⟨hash, m₁⟩, hcreate, heq⟩ := Option.bind_eq_some_iff.mp h
      obtain ⟨rfl, rfl⟩ := Prod.mk.inj (Option.some.inj heq)
      have hgranted := createBuckets_granted hcreate
      exact Or.inr (Option.bind_eq_some_iff.mpr ⟨_, hgranted, rfl⟩)
    · rw [if_neg h₁] at h
      obtain ⟨rfl, rfl⟩ := Prod.mk.inj (Option.some.inj h)
      exact Or.inl ⟨rfl, rfl, Or.inr rfl⟩
  · rw [if_neg h₀] at h
    obtain ⟨rfl, rfl⟩ := Prod.mk.inj (Option.some.inj h)
    exact Or.inl ⟨rfl, rfl, Or.inl rfl⟩

theorem rehashNode_null (nodes : Heap Bucket) (n size : ℕ) (data : Addr) :
    rehashNode nodes ⟨n, none⟩ size data = none := by
  simp [rehashNode, bucketAt]

/-- Only chains without an entry can be moved there. -/
theorem rehashAll_null {size n : ℕ} {ps : List Addr} {r : MList × Heap Bucket}
    (h : rehashAll size ps ⟨n, none⟩ nodes = some r) : ∀ p ∈ ps, nextOf nodes p = none := by
  induction ps with
  | nil =>
    intro p hp
    cases hp
  | cons q ps ih =>
    obtain ⟨⟨ml₁, n₁⟩, hchain, hrest⟩ := Option.bind_eq_some_iff.mp h
    cases hbrk : nodes.brk with
    | zero =>
      rw [hbrk] at hchain
      cases hchain
    | succ fuel =>
      rw [hbrk, rehashChain] at hchain
      obtain ⟨d, hd, hmatch⟩ := Option.bind_eq_some_iff.mp hchain
      cases hnext : d.next_node with
      | none =>
        rw [hnext] at hmatch
        obtain ⟨rfl, rfl⟩ := Prod.mk.inj (Option.some.inj hmatch)
        intro p hp
        rcases List.mem_cons.mp hp with rfl | hp
        · rw [nextOf, Heap.field_of_load hd, hnext]
        · exact ih hrest p hp
      | some q' =>
        rw [hnext] at hmatch
        simp [rehashNode_null] at hmatch

theorem Stores.exists_link (h : Stores nodes ml t chain) (hne : t.entries ≠ []) :
    ∃ hash, ml.hash = some hash ∧ ∃ p ∈ hash, nextOf nodes p ≠ none := by
  obtain ⟨e, he⟩ := List.exists_mem_of_ne_nil _ hne
  obtain ⟨j, hj, hej⟩ := List.mem_flatMap.mp he
  obtain ⟨p, as, s, hp, -, hseg, -, hent, -⟩ := h.bucketAt (List.mem_range.mp hj)
  obtain ⟨hash, hhash, hget⟩ := Option.bind_eq_some_iff.mp hp
  refine ⟨hash, hhash, p, List.mem_of_getElem? hget, ?_⟩
  cases as with
  | nil =>
    rw [List.map_eq_nil_iff.mp hent.symm] at hej
    cases hej
  | cons a as =>
    obtain ⟨hpa, hseg⟩ := hseg
    obtain rfl := Option.some.inj hpa
    intro hnull
    rw [hnull] at hseg
    cases as with
    | nil => cases hseg.1
    | cons b as => cases hseg.1

theorem resize_granted (h : Stores m.nodes ml t chain) (hne : t.entries ≠ [])
    (hresize : resize m ml = some (ml', m')) : resize m.granted ml = some (ml', m'.granted) := by
  obtain ⟨⟨r, m₁⟩, hcreate, hrest⟩ := Option.bind_eq_some_iff.mp hresize
  obtain ⟨hash, hhash, hrest⟩ := Option.bind_eq_some_iff.mp hrest
  obtain ⟨new_ml, hr, hrest⟩ := Option.bind_eq_some_iff.mp hrest
  obtain ⟨⟨ml₂, n₂⟩, hall, heq⟩ := Option.bind_eq_some_iff.mp hrest
  obtain ⟨rfl, rfl⟩ := Prod.mk.inj (Option.some.inj heq)
  subst hr
  rcases mlCreate_cases hcreate with ⟨hnodes, -, hnull | hnull⟩ | hgranted
  · cases hnull
  · obtain rfl := Option.some.inj hnull
    obtain ⟨hash', hhash', p, hp, hlink⟩ := h.exists_link hne
    obtain rfl := Option.some.inj (hhash.symm.trans hhash')
    have hnull' := rehashAll_null hall p hp
    rw [hnodes] at hnull'
    exact absurd hnull' hlink
  · have hgranted' : mlCreate { m.granted with size := ml.size * 2 } = some (some new_ml, m₁.granted) :=
      hgranted
    have hall' : rehashAll m₁.granted.size hash new_ml m₁.granted.nodes = some (ml₂, n₂) := hall
    simp only [resize, hgranted', hhash, hall', Option.bind_eq_bind, Option.bind_some]
    rfl

theorem entries_push_ne_nil (hpos : 0 < t.size) (me : MEntryPtr) : (t.push me).entries ≠ [] := by
  apply List.ne_nil_of_mem (a := me)
  refine List.mem_flatMap.mpr ⟨meHash me.deref t.size, List.mem_range.mpr (meHash_lt _ hpos), ?_⟩
  rw [Table.bucket_push_self]
  exact List.mem_append_right _ (List.mem_singleton_self me)

theorem mlAdd_cases (h : Stores m.nodes ml t chain) (hadd : mlAdd m ml me = some (v, ml', m')) :
    (v = 0 ∧ ml' = ml ∧ m'.nodes = m.nodes ∧ m'.size = m.size) ∨
      mlAdd m.granted ml me = some (v, ml', m'.granted) := by
  have hlookup := mlLookup_spec h me.deref
  have hlookup' : mlLookup m.granted ml me.deref = some (t.lookup me.deref) := hlookup
  cases hfound : t.lookup me.deref with
  | some e =>
    simp only [mlAdd, hlookup, hfound, Option.bind_eq_bind, Option.bind_some] at hadd
    obtain ⟨rfl, rfl, rfl⟩ : v = 1 ∧ ml' = ml ∧ m' = m := by simpa [eq_comm] using hadd
    right
    simp only [mlAdd, hlookup', hfound, Option.bind_eq_bind, Option.bind_some]
  | none =>
    obtain ⟨first, cur, n₁, n₂, chain₁, hfirst, htail, hset₁, hset₂, h₁, -⟩ := h.push me
    by_cases hs : m.sched 0
    · right
      simp only [mlAdd, hlookup, hfound, hs, h.size, Heap.malloc_fst, Heap.malloc_brk, hfirst, htail,
        hset₁, hset₂, Option.bind_eq_bind, Option.bind_some, if_true] at hadd
      by_cases hfull : t.size < (t.bucket (meHash me.deref t.size)).length
      · rw [if_pos hfull] at hadd
        obtain ⟨⟨ml₁, m₁⟩, hresize, heq⟩ := Option.bind_eq_some_iff.mp hadd
        obtain ⟨rfl, rfl, rfl⟩ : 1 = v ∧ ml₁ = ml' ∧ m₁ = m' := by simpa using heq
        have hgranted := resize_granted (m := { m with nodes := n₂, sched := m.sched.rest }) h₁
          (entries_push_ne_nil h.pos me) hresize
        simp only [mlAdd, hlookup', hfound, h.size, Mem.granted_nodes, Mem.granted_sched,
          Heap.malloc_fst, Heap.malloc_brk, hfirst, htail, hset₁, hset₂, hfull, Option.bind_eq_bind,
          Option.bind_some, if_true]
        exact Option.bind_eq_some_iff.mpr ⟨_, hgranted, rfl⟩
      · rw [if_neg hfull] at hadd
        obtain ⟨rfl, rfl, rfl⟩ := (by simpa using hadd : 1 = v ∧ ml = ml' ∧ _ = m')
        simp only [mlAdd, hlookup', hfound, h.size, Mem.granted_nodes, Mem.granted_sched,
          Heap.malloc_fst, Heap.malloc_brk, hfirst, htail, hset₁, hset₂, hfull, Option.bind_eq_bind,
          Option.bind_some, if_true, if_false]
        rfl
    · left
      simp only [mlAdd, hlookup, hfound, if_neg hs, Option.bind_eq_bind, Option.bind_some] at hadd
      obtain ⟨rfl, rfl, rfl⟩ := (by simpa using hadd : 0 = v ∧ ml = ml' ∧ _ = m')
      exact ⟨rfl, rfl, rfl, rfl⟩

/-- `ml_add` on a list with a table, whatever its allocations return. -/
theorem mlAdd_any (h : Stores m.nodes ml t chain) (hadd : mlAdd m ml me = some (v, ml', m')) :
    (v = 0 ∧ ml' = ml ∧ m'.nodes = m.nodes ∧ m'.size = m.size) ∨
      (v = 1 ∧ (0 < m.size → 0 < m'.size) ∧
        ∃ chain', Stores m'.nodes ml' (t.add me) chain' ∧ Confined m.nodes m'.nodes chain chain') := by
  rcases mlAdd_cases h hadd with hfail | hgranted
  · exact Or.inl hfail
  · right
    obtain ⟨ml₁, m₁, chain', hadd', hstores, -, -, hsize, hconf⟩ :=
      mlAdd_spec (m := m.granted) h rfl me
    obtain ⟨rfl, rfl, rfl⟩ : v = 1 ∧ ml' = ml₁ ∧ m'.granted = m₁ := by
      simpa using hgranted.symm.trans hadd'
    exact ⟨rfl, hsize, chain', hstores, hconf⟩

theorem mlCreate_any {r : Option MList} (hpos : 0 < m.size) (hcreate : mlCreate m = some (r, m')) :
    m'.size = m.size ∧
      ((m'.nodes = m.nodes ∧ (r = none ∨ r = some ⟨m.size, none⟩)) ∨
        ∃ chain, (∃ ml, r = some ml ∧ Stores m'.nodes ml (.empty m.size) chain) ∧
          Confined m.nodes m'.nodes (fun _ : ℕ => []) chain) := by
  rcases mlCreate_cases hcreate with ⟨hnodes, hsize, hr⟩ | hgranted
  · exact ⟨hsize, Or.inl ⟨hnodes, hr⟩⟩
  · obtain ⟨ml, nodes', chain, hcreate', hstores, hconf⟩ := mlCreate_stores m.granted rfl hpos
    obtain ⟨rfl, hm⟩ := Prod.mk.inj (Option.some.inj (hgranted.symm.trans hcreate'))
    have hsize : m'.granted.size = m.granted.size := by rw [hm]
    have hnodes : m'.granted.nodes = nodes' := by rw [hm]
    obtain rfl : m'.nodes = nodes' := hnodes
    exact ⟨hsize, Or.inr ⟨chain, ⟨ml, rfl, hstores⟩, hconf⟩⟩

end CIS415.MList
