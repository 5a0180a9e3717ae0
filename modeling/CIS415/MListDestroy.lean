import CIS415.MListResize

/-!
# What ml_destroy visits

`ml_destroy` goes through as many buckets as the global `size` says. It frees the nodes of each and
destroys the entries of all of them but the last, which are the entries that count. An index beyond
the table of the list fails.
-/

namespace CIS415.MList

open Pointer

variable {nodes : Heap Bucket} {ml : MList} {t : Table} {m : Mem} {p s : Addr} {as : List Addr}
  {vs : List MEntryPtr}

theorem destroyChain_spec {fuel : ℕ} (h : Seg (nextOf nodes) (some p) (as ++ [s]) none)
    (hs : (nodes.load s).isSome) (hn : (as ++ [s]).Nodup)
    (hvs : as.map (entryOf nodes) = vs.map some) (hfuel : as.length < fuel) :
    ∃ nodes', destroyChain fuel p nodes = some (vs, nodes') ∧ nodes'.brk = nodes.brk ∧
      ∀ a, a ∉ as ++ [s] → nodes'.load a = nodes.load a := by
  induction as generalizing p vs fuel nodes with
  | nil =>
    obtain ⟨fuel, rfl⟩ := Nat.exists_eq_succ_of_ne_zero (Nat.ne_zero_of_lt hfuel)
    obtain ⟨rfl, d, hd, hnull⟩ := seg_end h hs
    obtain rfl := List.map_eq_nil_iff.mp hvs.symm
    obtain ⟨nodes', hfree, hload, hbrk⟩ := Heap.free_spec hd
    refine ⟨nodes', by simp [destroyChain, hd, hnull, hfree], hbrk, ?_⟩
    intro a ha
    rw [hload, Function.update_of_ne (fun he => ha (by simp [he]))]
  | cons b as ih =>
    obtain ⟨fuel, rfl⟩ := Nat.exists_eq_succ_of_ne_zero (Nat.ne_zero_of_lt hfuel)
    obtain ⟨rfl, d, q, hd, hnext, hseg⟩ := seg_before_end h
    obtain ⟨hpas, hn⟩ := List.nodup_cons.mp (show (p :: (as ++ [s])).Nodup from hn)
    cases vs with
    | nil => cases hvs
    | cons e vs =>
      rw [List.map_cons, List.map_cons, List.cons.injEq] at hvs
      have he : d.entry = some e := by
        rw [← Heap.field_of_load hd Bucket.entry]
        exact hvs.1
      obtain ⟨n₁, hfree, hload, hbrk⟩ := Heap.free_spec hd
      have hother : ∀ a ∈ as ++ [s], n₁.load a = nodes.load a := by
        intro a ha
        have hne : a ≠ p := by
          rintro rfl
          exact hpas ha
        rw [hload, Function.update_of_ne hne]
      have hseg₁ : Seg (nextOf n₁) (some q) (as ++ [s]) none := by
        refine (seg_congr ?_).mpr hseg
        intro a ha
        rw [nextOf, Heap.field, hother a ha]
        rfl
      have hvs₁ : as.map (entryOf n₁) = vs.map some := by
        rw [← hvs.2]
        apply List.map_congr_left
        intro a ha
        rw [entryOf, Heap.field, hother a (List.mem_append_left _ ha)]
        rfl
      have hs₁ : (n₁.load s).isSome := by
        rw [hother s (by simp)]
        exact hs
      obtain ⟨n₂, hrest, hbrk', hload'⟩ :=
        ih hseg₁ hs₁ hn hvs₁ (Nat.lt_of_succ_lt_succ hfuel)
      refine ⟨n₂, by simp [destroyChain, hd, hnext, he, hfree, hrest], hbrk'.trans hbrk, ?_⟩
      intro a ha
      have ha' : a ≠ p ∧ a ∉ as ++ [s] := not_or.mp (fun h => ha (List.mem_cons.mpr h))
      rw [hload' a ha'.2, hload, Function.update_of_ne ha'.1]

/-- The buckets `is` of a stored table in a heap that still has their chains. -/
theorem destroyBuckets_spec {chain : ℕ → List Addr} (h : Stores nodes ml t chain) {is : List ℕ}
    (hnd : is.Nodup) (his : ∀ i ∈ is, i < t.size) {nodes₁ : Heap Bucket}
    (hbrk : nodes₁.brk = nodes.brk)
    (hload : ∀ i ∈ is, ∀ a ∈ chain i, nodes₁.load a = nodes.load a) :
    ∃ nodes', destroyBuckets ml is nodes₁ = some (is.flatMap t.bucket, nodes') ∧
      nodes₁.Frame nodes' fun a => ∃ k, a ∈ chain k := by
  induction is generalizing nodes₁ with
  | nil => exact ⟨nodes₁, rfl, .refl nodes₁ _⟩
  | cons i is ih =>
    obtain ⟨hi, hnd⟩ := List.nodup_cons.mp hnd
    obtain ⟨p, as, s, hp, hchain, hseg, hs, hent, hlt⟩ := h.bucketAt (his i (by simp))
    have hsame : ∀ a ∈ as ++ [s], nodes₁.load a = nodes.load a := by
      intro a ha
      exact hload i (by simp) a (hchain ▸ ha)
    have hseg₁ : Seg (nextOf nodes₁) (some p) (as ++ [s]) none := by
      refine (seg_congr ?_).mpr hseg
      intro a ha
      rw [nextOf, Heap.field, hsame a ha]
      rfl
    have hent₁ : as.map (entryOf nodes₁) = (t.bucket i).map some := by
      rw [← hent]
      apply List.map_congr_left
      intro a ha
      rw [entryOf, Heap.field, hsame a (List.mem_append_left _ ha)]
      rfl
    have hs₁ : (nodes₁.load s).isSome := by
      rw [hsame s (by simp)]
      exact hs
    obtain ⟨n₂, hdestroy, hbrk₂, hload₂⟩ :=
      destroyChain_spec hseg₁ hs₁ (hchain ▸ h.chains.nodup i) hent₁ (hbrk ▸ hlt)
    obtain ⟨n₃, hrest, hframe⟩ := ih hnd (fun j hj => his j (List.mem_cons_of_mem _ hj))
      (hbrk₂.trans hbrk) (by
        intro j hj a ha
        rw [hload₂ a, hload j (List.mem_cons_of_mem _ hj) a ha]
        intro hmem
        have hji : j = i := h.chains.disjoint j i a ha (hchain ▸ hmem)
        exact hi (hji ▸ hj))
    have hframe₂ : nodes₁.Frame n₂ fun a => ∃ k, a ∈ chain k :=
      ⟨fun a _ hno => hload₂ a fun hmem => hno ⟨i, hchain ▸ hmem⟩, hbrk₂.ge⟩
    exact ⟨n₃, by simp [destroyBuckets, hp, hdestroy, hrest],
      hframe₂.trans hframe fun _ _ hown => hown⟩

/-- While `size` is at most the number of buckets, `ml_destroy` destroys the entries that count in the
first `size` of them. -/
theorem mlDestroy_of_le {chain : ℕ → List Addr} (h : Stores m.nodes ml t chain)
    (hsize : m.size ≤ t.size) :
    ∃ nodes', mlDestroy m ml =
        some ((List.range m.size).flatMap t.bucket, { m with nodes := nodes' }) ∧
      m.nodes.Frame nodes' fun a => ∃ k, a ∈ chain k := by
  obtain ⟨nodes', hdestroy, hframe⟩ := destroyBuckets_spec h List.nodup_range
    (fun i hi => (List.mem_range.mp hi).trans_le hsize) rfl (fun _ _ _ _ => rfl)
  refine ⟨nodes', ?_, hframe⟩
  simp only [mlDestroy, hdestroy, Option.bind_eq_bind, Option.bind_some]

/-- On the list that `size` belongs to it destroys the entries that count. -/
theorem mlDestroy_spec {chain : ℕ → List Addr} (h : Stores m.nodes ml t chain)
    (hsize : m.size = t.size) : ∃ m', mlDestroy m ml = some (t.entries, m') := by
  obtain ⟨nodes', hdestroy, -⟩ := mlDestroy_of_le h hsize.le
  refine ⟨{ m with nodes := nodes' }, ?_⟩
  rw [hdestroy, hsize]
  rfl

theorem destroyBuckets_eq_none {is : List ℕ} {i : ℕ} (hi : i ∈ is) (hb : bucketAt ml i = none)
    (nodes : Heap Bucket) : destroyBuckets ml is nodes = none := by
  induction is generalizing nodes with
  | nil => cases hi
  | cons j is ih =>
    rcases List.mem_cons.mp hi with rfl | hi
    · simp [destroyBuckets, hb]
    · simp only [destroyBuckets, ih hi, Option.bind_eq_bind, Option.bind_none, Option.bind_fun_none]

theorem mlDestroy_eq_none {i : ℕ} (hi : i < m.size) (hb : bucketAt ml i = none) :
    mlDestroy m ml = none := by
  simp only [mlDestroy, destroyBuckets_eq_none (List.mem_range.mpr hi) hb, Option.bind_eq_bind,
    Option.bind_none]

theorem Stores.bucketAt_eq_none {chain : ℕ → List Addr} (h : Stores nodes ml t chain) {j : ℕ}
    (hj : t.size ≤ j) : MList.bucketAt ml j = none := by
  obtain ⟨hash, hhash, hlen, -⟩ := h.heads
  simp [MList.bucketAt, hhash, hlen, hj]

end CIS415.MList
