import CIS415.MList
import CIS415.Lib.Chains

/-!
# The table a list of mlist.c stores

A `Table` keeps for each bucket the entries of its chain that count, in chain order. The lemmas below
say that `ml_create`, `ml_lookup` and `ml_add` on the heap of nodes do to that table what the table
functions say, when the allocations succeed; `grow` is what `resize` does.
-/

namespace CIS415.MList

open Pointer MEntry

structure Table where
  size : ℕ
  bucket : ℕ → List MEntryPtr

namespace Table

def empty (size : ℕ) : Table :=
  ⟨size, fun _ => []⟩

def lookup (t : Table) (me : MEntry) : Option MEntryPtr :=
  (t.bucket (meHash me t.size)).find? fun e => decide (meCompare e.deref me = 0)

/-- The entries in the order in which `resize` moves them. -/
def entries (t : Table) : List MEntryPtr :=
  (List.range t.size).flatMap t.bucket

def push (t : Table) (me : MEntryPtr) : Table :=
  { t with
    bucket := Function.update t.bucket (meHash me.deref t.size)
      (t.bucket (meHash me.deref t.size) ++ [me]) }

/-- The moved nodes of a bucket form its whole chain, so the last of them ends the chain and its
entry no longer counts. -/
def grow (t : Table) : Table where
  size := t.size * 2
  bucket j := (t.entries.filter fun e => decide (meHash e.deref (t.size * 2) = j)).dropLast

def add (t : Table) (me : MEntryPtr) : Table :=
  if (t.lookup me.deref).isSome then t
  else if t.size < (t.bucket (meHash me.deref t.size)).length then (t.push me).grow
  else t.push me

end Table

variable {nodes nodes' : Heap Bucket} {ml new_ml : MList} {t : Table} {m : Mem} {p a b s : Addr}
  {as bs : List Addr} {vs : List MEntryPtr} {me : MEntryPtr}

def nextOf (nodes : Heap Bucket) : Addr → Option Addr :=
  nodes.field Bucket.next_node

def entryOf (nodes : Heap Bucket) : Addr → Option MEntryPtr :=
  nodes.field Bucket.entry

def inValOf (nodes : Heap Bucket) : Addr → Option ℤ :=
  nodes.field Bucket.in_val

/-- A write to `p`: the fields of `nodes'` are those given, on the same allocated nodes as `nodes`. -/
structure Writes (nodes nodes' : Heap Bucket) (p : Addr) (nx : Addr → Option Addr)
    (en : Addr → Option MEntryPtr) (iv : Addr → Option ℤ) : Prop where
  next : nextOf nodes' = nx
  entry : entryOf nodes' = en
  inVal : inValOf nodes' = iv
  alloc : ∀ a, (nodes'.load a).isSome = (nodes.load a).isSome
  frame : nodes.Frame nodes' (· = p)

theorem setNext_spec (nodes : Heap Bucket) (hp : (nodes.load p).isSome) (v : Option Addr) :
    ∃ nodes', setNext nodes p v = some nodes' ∧
      Writes nodes nodes' p (Function.update (nextOf nodes) p v) (entryOf nodes) (inValOf nodes) := by
  obtain ⟨n, hn⟩ := Option.isSome_iff_exists.mp hp
  obtain ⟨nodes', hstore, hload, hbrk⟩ := Heap.store_spec hn { n with next_node := v }
  refine ⟨nodes', by simp [setNext, hn, hstore], ?_, ?_, ?_, Heap.isSome_update hn hload,
    Heap.frame_update hload hbrk⟩
  · exact Heap.field_update hload Bucket.next_node
  · exact Heap.field_update_self hn hload rfl
  · exact Heap.field_update_self hn hload rfl

theorem setEntry_spec (nodes : Heap Bucket) (hp : (nodes.load p).isSome) (e : MEntryPtr) :
    ∃ nodes', setEntry nodes p e = some nodes' ∧
      Writes nodes nodes' p (nextOf nodes) (Function.update (entryOf nodes) p (some e))
        (inValOf nodes) := by
  obtain ⟨n, hn⟩ := Option.isSome_iff_exists.mp hp
  obtain ⟨nodes', hstore, hload, hbrk⟩ := Heap.store_spec hn { n with entry := some e }
  refine ⟨nodes', by simp [setEntry, hn, hstore], ?_, ?_, ?_, Heap.isSome_update hn hload,
    Heap.frame_update hload hbrk⟩
  · exact Heap.field_update_self hn hload rfl
  · exact Heap.field_update hload Bucket.entry
  · exact Heap.field_update_self hn hload rfl

theorem setInVal_spec (nodes : Heap Bucket) (hp : (nodes.load p).isSome) (v : ℤ) :
    ∃ nodes', setInVal nodes p v = some nodes' ∧
      Writes nodes nodes' p (nextOf nodes) (entryOf nodes)
        (Function.update (inValOf nodes) p (some v)) := by
  obtain ⟨n, hn⟩ := Option.isSome_iff_exists.mp hp
  obtain ⟨nodes', hstore, hload, hbrk⟩ := Heap.store_spec hn { n with in_val := some v }
  refine ⟨nodes', by simp [setInVal, hn, hstore], ?_, ?_, ?_, Heap.isSome_update hn hload,
    Heap.frame_update hload hbrk⟩
  · exact Heap.field_update_self hn hload rfl
  · exact Heap.field_update_self hn hload rfl
  · exact Heap.field_update hload Bucket.in_val

theorem tailFrom_seg {fuel : ℕ} (h : Seg (nextOf nodes) (some p) (as ++ [s]) none)
    (hs : (nodes.load s).isSome) (hfuel : as.length < fuel) :
    tailFrom nodes fuel p = some (s, as.length) := by
  induction as generalizing p fuel with
  | nil =>
    obtain ⟨fuel, rfl⟩ := Nat.exists_eq_succ_of_ne_zero (Nat.ne_zero_of_lt hfuel)
    obtain ⟨rfl, n, hn, hnull⟩ := seg_end h hs
    simp [tailFrom, hn, hnull]
  | cons a as ih =>
    obtain ⟨fuel, rfl⟩ := Nat.exists_eq_succ_of_ne_zero (Nat.ne_zero_of_lt hfuel)
    obtain ⟨rfl, n, q, hn, hnext, hseg⟩ := seg_before_end h
    have htail := ih hseg (Nat.lt_of_succ_lt_succ hfuel)
    simp [tailFrom, hn, hnext, htail]

theorem lookupFrom_seg {fuel : ℕ} (me : MEntry)
    (h : Seg (nextOf nodes) (some p) (as ++ [s]) none) (hs : (nodes.load s).isSome)
    (hvs : as.map (entryOf nodes) = vs.map some) (hfuel : as.length < fuel) :
    lookupFrom nodes me fuel p =
      some (vs.find? fun e => decide (meCompare e.deref me = 0)) := by
  induction as generalizing p vs fuel with
  | nil =>
    obtain ⟨fuel, rfl⟩ := Nat.exists_eq_succ_of_ne_zero (Nat.ne_zero_of_lt hfuel)
    obtain ⟨rfl, n, hn, hnull⟩ := seg_end h hs
    obtain rfl := List.map_eq_nil_iff.mp hvs.symm
    simp [lookupFrom, hn, hnull]
  | cons a as ih =>
    obtain ⟨fuel, rfl⟩ := Nat.exists_eq_succ_of_ne_zero (Nat.ne_zero_of_lt hfuel)
    obtain ⟨rfl, n, q, hn, hnext, hseg⟩ := seg_before_end h
    cases vs with
    | nil => cases hvs
    | cons e vs =>
      rw [List.map_cons, List.map_cons, List.cons.injEq] at hvs
      have he : n.entry = some e := by
        rw [← Heap.field_of_load hn Bucket.entry]
        exact hvs.1
      have hrest := ih hseg hvs.2 (Nat.lt_of_succ_lt_succ hfuel)
      by_cases hcmp : meCompare e.deref me = 0
      · simp [lookupFrom, hn, hnext, he, hcmp]
      · simp [lookupFrom, hn, hnext, he, hcmp, hrest]

/-- The list `ml` stores the table `t`, bucket `j` in the nodes `chain j`. -/
structure Stores (nodes : Heap Bucket) (ml : MList) (t : Table) (chain : ℕ → List Addr) : Prop where
  size : ml.size = t.size
  pos : 0 < t.size
  heads : ∃ hash, ml.hash = some hash ∧ hash.length = t.size ∧ ∀ j, hash[j]? = (chain j).head?
  chains : Chains (nextOf nodes) chain
  entries : ∀ j, (chain j).dropLast.map (entryOf nodes) = (t.bucket j).map some
  alloc : ∀ j, ∀ a ∈ chain j, (nodes.load a).isSome

variable {chain : ℕ → List Addr}

/-- The chain of a bucket of the table: its first node is in `hash`, its last one is the end. -/
theorem Stores.bucketAt (h : Stores nodes ml t chain) {j : ℕ} (hj : j < t.size) :
    ∃ p as s, MList.bucketAt ml j = some p ∧ chain j = as ++ [s] ∧
      Seg (nextOf nodes) (some p) (as ++ [s]) none ∧ (nodes.load s).isSome ∧
      as.map (entryOf nodes) = (t.bucket j).map some ∧ as.length < nodes.brk := by
  obtain ⟨hash, hhash, hlen, hheads⟩ := h.heads
  have hj' : j < hash.length := by omega
  have hhead := hheads j
  rw [List.getElem?_eq_getElem hj'] at hhead
  have hne : chain j ≠ [] := by
    intro hc
    rw [hc] at hhead
    cases hhead
  have hlast := List.dropLast_append_getLast hne
  have hseg := h.chains.seg j
  have hent := h.entries j
  have hlt := Heap.length_le_brk nodes (h.chains.nodup j) (h.alloc j)
  have hs := h.alloc j _ (List.getLast_mem hne)
  rw [← hlast, List.length_append, List.length_singleton] at hlt
  refine ⟨hash[j], (chain j).dropLast, (chain j).getLast hne, ?_, hlast.symm, ?_, hs, hent, hlt⟩
  · simp [MList.bucketAt, hhash]
  · rw [hlast, hhead]
    exact hseg

theorem mlLookup_spec (h : Stores m.nodes ml t chain) (me : MEntry) :
    mlLookup m ml me = some (t.lookup me) := by
  obtain ⟨p, as, s, hp, -, hseg, hs, hent, hlt⟩ := h.bucketAt (meHash_lt me h.pos)
  have hfrom := lookupFrom_seg me hseg hs hent hlt
  simp only [mlLookup, h.size, hp, hfrom, Option.bind_eq_bind, Option.bind_some]
  rfl

theorem Stores.notMem_brk (h : Stores nodes ml t chain) (j : ℕ) : nodes.brk ∉ chain j := by
  intro hmem
  have hs := h.alloc j _ hmem
  rw [Heap.load_brk] at hs
  cases hs

theorem isSome_malloc (nodes : Heap Bucket) (b : Bucket) (h : (nodes.load a).isSome) :
    ((nodes.malloc b).2.load a).isSome := by
  have ha : a ≠ nodes.brk := by
    rintro rfl
    rw [Heap.load_brk] at h
    cases h
  rw [Heap.malloc_load, Function.update_of_ne ha]
  exact h

theorem Stores.entries_push (h : Stores nodes ml t chain) (me : MEntryPtr) {as : List Addr}
    {s c : Addr} (hchain : chain (meHash me.deref t.size) = as ++ [s])
    (hen : entryOf nodes' = Function.update (entryOf nodes) s (some me)) (i : ℕ) :
    (Function.update chain (meHash me.deref t.size) (as ++ [s, c]) i).dropLast.map
      (entryOf nodes') = ((t.push me).bucket i).map some := by
  have hent := h.entries (meHash me.deref t.size)
  rw [hen, Table.push]
  dsimp only
  generalize meHash me.deref t.size = j at hchain hent ⊢
  rw [hchain, List.dropLast_concat] at hent
  have hsj : s ∈ chain j := by simp [hchain]
  by_cases hi : i = j
  · subst hi
    have hsas : s ∉ as := by
      have hn := h.chains.nodup i
      rw [hchain] at hn
      intro hmem
      exact (List.nodup_append.mp hn).2.2 s hmem s (List.mem_singleton_self s) rfl
    have hdrop : (as ++ [s, c]).dropLast = as ++ [s] := by
      rw [List.dropLast_append_of_ne_nil (List.cons_ne_nil _ _)]
      rfl
    rw [Function.update_self, Function.update_self, hdrop, List.map_append, List.map_append,
      map_update_of_notMem hsas, hent]
    simp
  · rw [Function.update_of_ne hi, Function.update_of_ne hi, map_update_of_notMem]
    · exact h.entries i
    · intro hmem
      exact hi (h.chains.disjoint i j s ((List.dropLast_sublist _).subset hmem) hsj)

/-- The statements of `ml_add` from the walk on: the end node takes the entry, and the new node
becomes the end. -/
theorem Stores.push (h : Stores nodes ml t chain) (me : MEntryPtr) :
    ∃ first cur n₁ n₂ chain', MList.bucketAt ml (meHash me.deref t.size) = some first ∧
      tailFrom (nodes.malloc { next_node := none }).2 (nodes.brk + 1) first =
        some (cur, (t.bucket (meHash me.deref t.size)).length) ∧
      setNext (nodes.malloc { next_node := none }).2 cur (some nodes.brk) = some n₁ ∧
      setEntry n₁ cur me = some n₂ ∧ Stores n₂ ml (t.push me) chain' ∧
      Confined nodes n₂ chain chain' := by
  have hj := meHash_lt me.deref h.pos
  generalize hjdef : meHash me.deref t.size = j at hj
  obtain ⟨p, as, s, hp, hchain, hseg, hs, hent, hlt⟩ := h.bucketAt hj
  have hlen : (t.bucket j).length = as.length := by
    have hl := congrArg List.length hent
    rwa [List.length_map, List.length_map, eq_comm] at hl
  have hnext₀ : nextOf (nodes.malloc { next_node := none }).2 = nextOf nodes :=
    nodes.field_malloc_none rfl
  have hent₀ : entryOf (nodes.malloc { next_node := none }).2 = entryOf nodes :=
    nodes.field_malloc_none rfl
  have hs₀ := isSome_malloc nodes { next_node := none } hs
  have htail : tailFrom (nodes.malloc { next_node := none }).2 (nodes.brk + 1) p =
      some (s, as.length) :=
    tailFrom_seg (hnext₀ ▸ hseg) hs₀ (Nat.lt_succ_of_lt hlt)
  obtain ⟨n₁, hset₁, hw₁⟩ := setNext_spec _ hs₀ (some nodes.brk)
  have hs₁ : (n₁.load s).isSome := by
    rw [hw₁.alloc]
    exact hs₀
  obtain ⟨n₂, hset₂, hw₂⟩ := setEntry_spec n₁ hs₁ me
  have hfresh : nextOf nodes nodes.brk = none := by
    rw [nextOf, Heap.field, Heap.load_brk]
    rfl
  have hsj : ∃ k, s ∈ chain k := ⟨j, by rw [hchain]; simp⟩
  refine ⟨p, s, n₁, n₂, Function.update chain j (as ++ [s, nodes.brk]), hp, hlen ▸ htail, hset₁,
    hset₂, ⟨h.size, h.pos, ?_, ?_, ?_, ?_⟩, ?_⟩
  · obtain ⟨hash, hhash, hhl, hheads⟩ := h.heads
    refine ⟨hash, hhash, hhl, ?_⟩
    intro i
    rw [head?_update]
    · exact hheads i
    · rw [hchain]
      cases as <;> rfl
  · rw [hw₂.next, hw₁.next, hnext₀]
    exact h.chains.snoc hchain h.notMem_brk hfresh
  · intro i
    subst hjdef
    apply h.entries_push me hchain
    rw [hw₂.entry, hw₁.entry, hent₀]
  · intro i a ha
    rw [hw₂.alloc, hw₁.alloc]
    by_cases hi : i = j
    · subst hi
      rw [Function.update_self] at ha
      have ha' : a ∈ chain i ∨ a = nodes.brk := by
        rw [hchain]
        simpa [or_assoc] using ha
      rcases ha' with ha' | rfl
      · exact isSome_malloc nodes _ (h.alloc i a ha')
      · simp
    · rw [Function.update_of_ne hi] at ha
      exact isSome_malloc nodes _ (h.alloc i a ha)
  · have hframe : nodes.Frame n₂ fun a => ∃ k, a ∈ chain k :=
      (nodes.frame_malloc { next_node := none } _).trans
        (hw₁.frame.trans hw₂.frame fun _ _ he => he) fun _ _ he => he ▸ hsj
    apply Confined.update hframe
    intro a ha
    have ha' : a ∈ chain j ∨ a = nodes.brk := by
      rw [hchain]
      simpa [or_assoc] using ha
    exact ha'.imp (fun ha' => ⟨j, ha'⟩) (fun he => he.ge)

end CIS415.MList
