import CIS415.MListTable

/-!
# What resize does to the table

`resize` cuts the nodes of the old chains off one by one and links each behind the chain of its new
bucket. `Moving` is the state in between: old chains that still end in their end node, and new
chains all of whose nodes hold entries. At the end the last node of every new chain has a NULL link,
so the entry in it no longer counts, and `Table.grow` describes the result.
-/

namespace CIS415.MList

open Pointer MEntry Sum

variable {nodes nodes' : Heap Bucket} {ml new_ml : MList} {t : Table} {m : Mem} {p a b s : Addr}
  {as bs : List Addr} {es vs : List MEntryPtr} {e : MEntryPtr} {n : ℕ}

/-- A chain of the new table during `resize`, with the entries of its nodes. -/
inductive Filled (nodes : Heap Bucket) : List Addr → List MEntryPtr → Prop
  | empty (s : Addr) (hv : inValOf nodes s = some 0) : Filled nodes [s] []
  | one (p : Addr) (e : MEntryPtr) (hv : inValOf nodes p = some 1)
      (he : entryOf nodes p = some e) : Filled nodes [p] [e]
  | more (p : Addr) (as : List Addr) (es : List MEntryPtr) (hv : inValOf nodes p = some 2)
      (has : as ≠ []) (hes : (p :: as).map (entryOf nodes) = es.map some) :
      Filled nodes (p :: as) es

theorem Filled.congr (h : Filled nodes as vs) (hen : ∀ a ∈ as, entryOf nodes' a = entryOf nodes a)
    (hiv : ∀ a ∈ as, inValOf nodes' a = inValOf nodes a) : Filled nodes' as vs := by
  cases h with
  | empty s hv =>
    apply Filled.empty
    rw [hiv s (by simp)]
    exact hv
  | one p e hv he =>
    apply Filled.one
    · rw [hiv p (by simp)]
      exact hv
    · rw [hen p (by simp)]
      exact he
  | more p as _ hv has hes =>
    apply Filled.more _ _ _ _ has
    · rw [List.map_congr_left hen]
      exact hes
    · rw [hiv p (by simp)]
      exact hv

theorem Filled.dropLast (h : Filled nodes as vs) :
    as.dropLast.map (entryOf nodes) = vs.dropLast.map some := by
  cases h with
  | empty s hv => rfl
  | one p e hv he => rfl
  | more p as _ hv has hes => rw [List.map_dropLast, hes, List.map_dropLast]

structure Moving (nodes : Heap Bucket) (new_ml : MList) (n : ℕ) (chain : ℕ ⊕ ℕ → List Addr)
    (olds news : ℕ → List MEntryPtr) : Prop where
  size : new_ml.size = n
  heads : ∃ hash, new_ml.hash = some hash ∧ hash.length = n ∧
    ∀ j, hash[j]? = (chain (inr j)).head?
  chains : Chains (nextOf nodes) chain
  olds : ∀ i, (chain (inl i)).dropLast.map (entryOf nodes) = (olds i).map some
  news : ∀ j, j < n → Filled nodes (chain (inr j)) (news j)
  alloc : ∀ k, ∀ a ∈ chain k, (nodes.load a).isSome

variable {chain : ℕ ⊕ ℕ → List Addr} {olds news : ℕ → List MEntryPtr}

/-- The chain of a bucket of the new table, by its first and its last node. -/
theorem Moving.bucketAt (h : Moving nodes new_ml n chain olds news) {j : ℕ} (hj : j < n) :
    ∃ p as s, MList.bucketAt new_ml j = some p ∧ chain (inr j) = as ++ [s] ∧
      (as ++ [s]).head? = some p ∧
      tailFrom nodes nodes.brk p = some (s, as.length) := by
  obtain ⟨hash, hhash, hlen, hheads⟩ := h.heads
  have hj' : j < hash.length := by omega
  have hhead := hheads j
  rw [List.getElem?_eq_getElem hj'] at hhead
  obtain ⟨as, s, hc⟩ : ∃ as s, chain (inr j) = as ++ [s] := by
    rcases List.eq_nil_or_concat (chain (inr j)) with hnil | ⟨as, s, hc⟩
    · rw [hnil] at hhead
      cases hhead
    · exact ⟨as, s, hc.trans List.concat_eq_append⟩
  have hseg := h.chains.seg (inr j)
  have hlt := Heap.length_le_brk nodes (h.chains.nodup (inr j)) (h.alloc (inr j))
  have hs := h.alloc (inr j) s (by simp [hc])
  rw [← hhead, hc] at hseg
  rw [hc, List.length_append, List.length_singleton] at hlt
  refine ⟨hash[j], as, s, by simp [MList.bucketAt, hhash], hc, ?_, tailFrom_seg hseg hs hlt⟩
  rw [← hc]
  exact hhead.symm

theorem Moving.cut (h : Moving nodes new_ml n chain olds news) {i : ℕ}
    (hi : chain (inl i) = a :: as) (has : as ≠ []) (hes : olds i = e :: es) :
    ∃ nodes', setNext nodes a none = some nodes' ∧
      Moving nodes' new_ml n (Function.update chain (inl i) as) (Function.update olds i es) news ∧
      (∀ k, a ∉ Function.update chain (inl i) as k) ∧ entryOf nodes' a = some e ∧
      nextOf nodes' a = none ∧ (∀ b, (nodes'.load b).isSome = (nodes.load b).isSome) ∧
      Confined nodes nodes' chain (Function.update chain (inl i) as) := by
  have haa := h.alloc (inl i) a (by simp [hi])
  have hent := h.olds i
  have hdrop : (a :: as).dropLast = a :: as.dropLast := List.dropLast_cons_of_ne_nil has
  rw [hi, hes, hdrop, List.map_cons, List.map_cons, List.cons.injEq] at hent
  obtain ⟨hae, hes'⟩ := hent
  obtain ⟨nodes', hset, hw⟩ := setNext_spec nodes haa none
  obtain ⟨hcut, hfree⟩ := h.chains.cut hi
  rw [← hw.next] at hcut
  refine ⟨nodes', hset, ⟨h.size, ?_, hcut, ?_, ?_, ?_⟩, hfree, ?_, ?_, hw.alloc, ?_⟩
  · obtain ⟨hash, hhash, hlen, hheads⟩ := h.heads
    refine ⟨hash, hhash, hlen, ?_⟩
    intro x
    rw [Function.update_of_ne Sum.inr_ne_inl]
    exact hheads x
  · intro x
    rw [hw.entry]
    by_cases hx : x = i
    · subst hx
      rw [Function.update_self, Function.update_self]
      exact hes'
    · rw [Function.update_of_ne (fun he => hx (Sum.inl_injective he)), Function.update_of_ne hx]
      exact h.olds x
  · intro x hx
    rw [Function.update_of_ne Sum.inr_ne_inl]
    apply (h.news x hx).congr
    · intro b _
      rw [hw.entry]
    · intro b _
      rw [hw.inVal]
  · intro k b hb
    rw [hw.alloc]
    by_cases hk : k = inl i
    · subst hk
      rw [Function.update_self] at hb
      exact h.alloc (inl i) b (by simp [hi, hb])
    · rw [Function.update_of_ne hk] at hb
      exact h.alloc k b hb
  · rw [hw.entry]
    exact hae
  · rw [hw.next, Function.update_self]
  · apply Confined.update (hw.frame.mono fun b hb => ⟨inl i, by simp [hi, hb]⟩)
    intro b hb
    exact Or.inl ⟨inl i, by simp [hi, hb]⟩

/-- Frame: bucket `j` of the new table gets the chain `as`, and every other chain is as it was. -/
theorem Moving.refill {new_ml' : MList} {j : ℕ} (h : Moving nodes new_ml n chain olds news)
    (hsize : new_ml'.size = n)
    (hheads : ∃ hash, new_ml'.hash = some hash ∧ hash.length = n ∧
      ∀ x, hash[x]? = (Function.update chain (inr j) as (inr x)).head?)
    (hchains : Chains (nextOf nodes') (Function.update chain (inr j) as))
    (hfilled : Filled nodes' as vs) (hen : entryOf nodes' = entryOf nodes)
    (hiv : ∀ b, b ∉ as → inValOf nodes' b = inValOf nodes b)
    (halloc : ∀ b, (nodes'.load b).isSome = (nodes.load b).isSome)
    (has : ∀ b ∈ as, (nodes.load b).isSome) :
    Moving nodes' new_ml' n (Function.update chain (inr j) as) olds (Function.update news j vs) := by
  refine ⟨hsize, hheads, hchains, ?_, ?_, ?_⟩
  · intro i
    rw [hen, Function.update_of_ne Sum.inl_ne_inr]
    exact h.olds i
  · intro x hx
    by_cases hxj : x = j
    · subst hxj
      rw [Function.update_self, Function.update_self]
      exact hfilled
    · have hne : (inr x : ℕ ⊕ ℕ) ≠ inr j := fun he => hxj (Sum.inr_injective he)
      rw [Function.update_of_ne hxj, Function.update_of_ne hne]
      apply (h.news x hx).congr
      · intro b _
        rw [hen]
      · intro b hb
        apply hiv
        intro hbas
        apply hne
        apply hchains.disjoint (inr x) (inr j) b
        · rwa [Function.update_of_ne hne]
        · rwa [Function.update_self]
  · intro k b hb
    rw [halloc]
    by_cases hk : k = inr j
    · subst hk
      rw [Function.update_self] at hb
      exact has b hb
    · rw [Function.update_of_ne hk] at hb
      exact h.alloc k b hb

/-- Only the chain of bucket `j` of the new table changes its first node. -/
theorem Moving.heads_of_head_eq {j : ℕ} (h : Moving nodes new_ml n chain olds news)
    (has : as.head? = (chain (inr j)).head?) :
    ∃ hash, new_ml.hash = some hash ∧ hash.length = n ∧
      ∀ x, hash[x]? = (Function.update chain (inr j) as (inr x)).head? := by
  obtain ⟨hash, hhash, hlen, hheads⟩ := h.heads
  refine ⟨hash, hhash, hlen, ?_⟩
  intro x
  rw [head?_update has]
  exact hheads x

theorem Moving.attach_empty {j : ℕ} (h : Moving nodes new_ml n chain olds news)
    (hfree : ∀ k, a ∉ chain k) (ha : (nodes.load a).isSome) (hae : entryOf nodes a = some e)
    (hnext : nextOf nodes a = none) (hj : j < n) :
    ∃ hash nodes', new_ml.hash = some hash ∧ setInVal nodes a 1 = some nodes' ∧
      Moving nodes' { new_ml with hash := some (hash.set j a) } n
        (Function.update chain (inr j) [a]) olds (Function.update news j [e]) ∧
      nodes.Frame nodes' (· = a) := by
  obtain ⟨hash, hhash, hlen, hheads⟩ := h.heads
  obtain ⟨nodes', hset, hw⟩ := setInVal_spec nodes ha 1
  refine ⟨hash, nodes', hhash, hset, ?_, hw.frame⟩
  apply h.refill
  · exact h.size
  · refine ⟨hash.set j a, rfl, by rw [List.length_set, hlen], ?_⟩
    intro x
    by_cases hx : x = j
    · subst hx
      rw [Function.update_self, List.getElem?_set_self (by omega)]
      rfl
    · rw [Function.update_of_ne (fun he => hx (Sum.inr_injective he)),
        List.getElem?_set_ne (fun he => hx he.symm)]
      exact hheads x
  · rw [hw.next]
    exact h.chains.put hfree hnext
  · apply Filled.one
    · rw [hw.inVal, Function.update_self]
    · rw [hw.entry]
      exact hae
  · exact hw.entry
  · intro b hb
    rw [hw.inVal, Function.update_of_ne (fun he => hb (by simp [he]))]
  · exact hw.alloc
  · intro b hb
    rw [List.mem_singleton.mp hb]
    exact ha

theorem Moving.attach_one {j : ℕ} {s : Addr} {d : MEntryPtr}
    (h : Moving nodes new_ml n chain olds news) (hfree : ∀ k, a ∉ chain k)
    (ha : (nodes.load a).isSome) (hae : entryOf nodes a = some e) (hnext : nextOf nodes a = none)
    (hchain : chain (inr j) = [s]) (hd : entryOf nodes s = some d) :
    ∃ n₁ n₂, setNext nodes s (some a) = some n₁ ∧ setInVal n₁ s 2 = some n₂ ∧
      Moving n₂ new_ml n (Function.update chain (inr j) [s, a]) olds
        (Function.update news j [d, e]) ∧
      nodes.Frame n₂ (· = s) := by
  have hs := h.alloc (inr j) s (by simp [hchain])
  obtain ⟨n₁, hset₁, hw₁⟩ := setNext_spec nodes hs (some a)
  have hs₁ : (n₁.load s).isSome := by
    rw [hw₁.alloc]
    exact hs
  obtain ⟨n₂, hset₂, hw₂⟩ := setInVal_spec n₁ hs₁ 2
  have halloc : ∀ b, (n₂.load b).isSome = (nodes.load b).isSome := by
    intro b
    rw [hw₂.alloc, hw₁.alloc]
  have hentry : entryOf n₂ = entryOf nodes := by rw [hw₂.entry, hw₁.entry]
  refine ⟨n₁, n₂, hset₁, hset₂, ?_, hw₁.frame.trans hw₂.frame fun _ _ hb => hb⟩
  apply h.refill
  · exact h.size
  · exact h.heads_of_head_eq (by rw [hchain]; rfl)
  · rw [hw₂.next, hw₁.next]
    exact h.chains.snoc (hchain.trans (List.nil_append _).symm) hfree hnext
  · apply Filled.more
    · rw [hw₂.inVal, Function.update_self]
    · exact List.cons_ne_nil a []
    · rw [hentry]
      simp [hd, hae]
  · exact hentry
  · intro b hb
    rw [hw₂.inVal, hw₁.inVal, Function.update_of_ne (fun he => hb (by simp [he]))]
  · exact halloc
  · intro b hb
    have hb' : b = s ∨ b = a := by simpa using hb
    rcases hb' with rfl | rfl
    · exact hs
    · exact ha

theorem Moving.attach_more {j : ℕ} {p s : Addr} (h : Moving nodes new_ml n chain olds news)
    (hfree : ∀ k, a ∉ chain k) (ha : (nodes.load a).isSome) (hae : entryOf nodes a = some e)
    (hnext : nextOf nodes a = none) (hchain : chain (inr j) = bs ++ [s])
    (hcons : bs ++ [s] = p :: as) (hv : inValOf nodes p = some 2)
    (hes : (p :: as).map (entryOf nodes) = es.map some) :
    ∃ nodes', setNext nodes s (some a) = some nodes' ∧
      Moving nodes' new_ml n (Function.update chain (inr j) (bs ++ [s, a])) olds
        (Function.update news j (es ++ [e])) ∧
      nodes.Frame nodes' (· = s) := by
  have hs := h.alloc (inr j) s (by simp [hchain])
  obtain ⟨nodes', hset, hw⟩ := setNext_spec nodes hs (some a)
  refine ⟨nodes', hset, ?_, hw.frame⟩
  have hcs : bs ++ [s, a] = p :: (as ++ [a]) := by
    rw [← List.cons_append, ← hcons]
    simp
  apply h.refill
  · exact h.size
  · apply h.heads_of_head_eq
    rw [hchain, hcons, hcs]
    rfl
  · rw [hw.next]
    exact h.chains.snoc hchain hfree hnext
  · rw [hcs]
    apply Filled.more
    · rw [hw.inVal]
      exact hv
    · simp
    · rw [hw.entry, ← List.cons_append, List.map_append, List.map_append, hes]
      simp [hae]
  · exact hw.entry
  · intro b _
    rw [hw.inVal]
  · exact hw.alloc
  · intro b hb
    have hb' : b ∈ bs ++ [s] ∨ b = a := by simpa [or_assoc] using hb
    rcases hb' with hb' | rfl
    · exact h.alloc (inr j) b (hchain ▸ hb')
    · exact ha

/-- The three branches that put a node `a` outside all chains behind the chain of bucket `j`. -/
theorem Moving.attach {j : ℕ} (h : Moving nodes new_ml n chain olds news) (hj : j < n)
    (hfree : ∀ k, a ∉ chain k) (ha : (nodes.load a).isSome) (hae : entryOf nodes a = some e)
    (hnext : nextOf nodes a = none) {p s : Addr} (hp : MList.bucketAt new_ml j = some p)
    (hchain : chain (inr j) = bs ++ [s]) (hhead : (bs ++ [s]).head? = some p) :
    ∃ v new_ml' nodes' as', inValOf nodes p = some v ∧
      (if v = 0 then do
        let hash ← new_ml.hash
        let nodes ← setInVal nodes a 1
        some ({ new_ml with hash := some (hash.set j a) }, nodes)
      else if v = 1 then do
        let nodes ← setNext nodes p (some a)
        let nodes ← setInVal nodes p 2
        some (new_ml, nodes)
      else do
        let nodes ← setNext nodes s (some a)
        some (new_ml, nodes)) = some (new_ml', nodes') ∧
      Moving nodes' new_ml' n (Function.update chain (inr j) as') olds
        (Function.update news j (news j ++ [e])) ∧
      (∀ b ∈ as', b = a ∨ b ∈ chain (inr j)) ∧
      nodes.Frame nodes' fun b => b = a ∨ b ∈ chain (inr j) := by
  have hfill := h.news j hj
  rw [hchain] at hfill
  generalize hvs : news j = vs at hfill
  generalize hcs : bs ++ [s] = cs at hfill
  cases hfill with
  | empty q hv =>
    obtain ⟨rfl, hsq⟩ := List.append_inj' (show bs ++ [s] = [] ++ [q] from hcs) rfl
    obtain rfl : s = q := List.singleton_inj.mp hsq
    obtain rfl : s = p := Option.some.inj hhead
    obtain ⟨hash, nodes', hhash, hset, hmov, hframe⟩ := h.attach_empty hfree ha hae hnext hj
    exact ⟨0, _, nodes', [a], hv, by simp [hhash, hset], hmov, by simp,
      hframe.mono fun _ hb => Or.inl hb⟩
  | one q d hv hd =>
    obtain ⟨rfl, hsq⟩ := List.append_inj' (show bs ++ [s] = [] ++ [q] from hcs) rfl
    obtain rfl : s = q := List.singleton_inj.mp hsq
    obtain rfl : s = p := Option.some.inj hhead
    obtain ⟨n₁, n₂, hset₁, hset₂, hmov, hframe⟩ :=
      h.attach_one hfree ha hae hnext hchain hd
    exact ⟨1, new_ml, n₂, [s, a], hv, by simp [hset₁, hset₂], hmov, by simp [hchain],
      hframe.mono fun _ hb => Or.inr (by simp [hchain, hb])⟩
  | more q as _ hv has hes =>
    obtain rfl : q = p := by
      rw [hcs] at hhead
      exact Option.some.inj hhead
    obtain ⟨nodes', hset, hmov, hframe⟩ := h.attach_more hfree ha hae hnext hchain hcs hv hes
    refine ⟨2, new_ml, nodes', bs ++ [s, a], hv, by simp [hset], hmov, ?_,
      hframe.mono fun _ hb => Or.inr (by simp [hchain, hb])⟩
    intro b hb
    rw [hchain]
    simpa [or_assoc, or_comm, or_left_comm] using hb

/-- One node moves: the first of an old chain goes behind the chain of its new bucket. -/
theorem rehashNode_spec (h : Moving nodes new_ml n chain olds news) {i : ℕ}
    (hi : chain (inl i) = a :: as) (has : as ≠ []) (hes : olds i = e :: es) (hn : 0 < n) :
    ∃ new_ml' nodes' chain', rehashNode nodes new_ml n a = some (new_ml', nodes') ∧
      Moving nodes' new_ml' n chain' (Function.update olds i es)
        (Function.update news (meHash e.deref n) (news (meHash e.deref n) ++ [e])) ∧
      chain' (inl i) = as ∧ (∀ x, x ≠ i → chain' (inl x) = chain (inl x)) ∧
      Confined nodes nodes' chain chain' := by
  have hj := meHash_lt e.deref hn
  obtain ⟨n₁, hset, h₁, hfree, hae, hnext, halloc, hcut⟩ := h.cut hi has hes
  have ha : (n₁.load a).isSome := by
    rw [halloc]
    exact h.alloc (inl i) a (by simp [hi])
  obtain ⟨p, bs, s, hp, hchain, hhead, htail⟩ := h₁.bucketAt hj
  obtain ⟨v, new_ml', n₂, as', hv, hbranch, h₂, has', hframe⟩ :=
    h₁.attach hj hfree ha hae hnext hp hchain hhead
  obtain ⟨d, hload, hd⟩ := Heap.load_of_field hae
  obtain ⟨d', hload', hd'⟩ := Heap.load_of_field hv
  refine ⟨new_ml', n₂, _, ?_, h₂, ?_, ?_, hcut.putBack ⟨inl i, by simp [hi]⟩ hframe has'⟩
  · simp only [rehashNode, hset, hload, hd, hp, htail, hload', hd', Option.bind_eq_bind,
      Option.bind_some]
    exact hbranch
  · rw [Function.update_of_ne Sum.inl_ne_inr, Function.update_self]
  · intro x hx
    rw [Function.update_of_ne Sum.inl_ne_inr,
      Function.update_of_ne (fun he => hx (Sum.inl_injective he))]

/-- The entries of `es` go to the new buckets in their order. -/
def rehashed (n : ℕ) (news : ℕ → List MEntryPtr) (es : List MEntryPtr) (j : ℕ) : List MEntryPtr :=
  news j ++ es.filter fun e => decide (meHash e.deref n = j)

theorem rehashed_cons (news : ℕ → List MEntryPtr) (e : MEntryPtr) (es : List MEntryPtr) :
    rehashed n (Function.update news (meHash e.deref n) (news (meHash e.deref n) ++ [e])) es =
      rehashed n news (e :: es) := by
  funext j
  unfold rehashed
  by_cases hj : meHash e.deref n = j
  · subst hj
    rw [Function.update_self, List.filter_cons_of_pos (by simp), List.append_assoc]
    rfl
  · rw [Function.update_of_ne (fun he => hj he.symm), List.filter_cons_of_neg (by simp [hj])]

theorem rehashed_append (news : ℕ → List MEntryPtr) (es vs : List MEntryPtr) :
    rehashed n (rehashed n news es) vs = rehashed n news (es ++ vs) := by
  funext j
  unfold rehashed
  rw [List.filter_append, List.append_assoc]

theorem rehashChain_spec {i fuel : ℕ} (h : Moving nodes new_ml n chain olds news)
    (hp : (chain (inl i)).head? = some p) (hn : 0 < n)
    (hfuel : (chain (inl i)).length ≤ fuel) :
    ∃ new_ml' nodes' chain', rehashChain n fuel p new_ml nodes = some (new_ml', nodes') ∧
      Moving nodes' new_ml' n chain' (Function.update olds i []) (rehashed n news (olds i)) ∧
      (∀ x, x ≠ i → chain' (inl x) = chain (inl x)) ∧ Confined nodes nodes' chain chain' := by
  induction hc : chain (inl i) generalizing p nodes new_ml chain olds news fuel with
  | nil =>
    rw [hc] at hp
    cases hp
  | cons a as ih =>
    rw [hc] at hp hfuel
    obtain rfl : a = p := Option.some.inj hp
    obtain ⟨fuel, rfl⟩ := Nat.exists_eq_succ_of_ne_zero (Nat.ne_zero_of_lt hfuel)
    have hseg := h.chains.seg_of_eq hc
    have hent := h.olds i
    rw [hc] at hent
    obtain ⟨d, hload⟩ := Option.isSome_iff_exists.mp (h.alloc (inl i) a (by simp [hc]))
    cases as with
    | nil =>
      -- the end node of the old chain is left behind
      have holds : olds i = [] := List.map_eq_nil_iff.mp hent.symm
      have hnull : d.next_node = none := by
        rw [← Heap.field_of_load hload Bucket.next_node]
        exact hseg.2
      refine ⟨new_ml, nodes, chain, ?_, ?_, fun x _ => rfl, .refl nodes chain⟩
      · simp [rehashChain, hload, hnull]
      · have hnews : rehashed n news (olds i) = news := by
          funext j
          rw [rehashed, holds, List.filter_nil, List.append_nil]
        have hupd : Function.update olds i [] = olds := by
          rw [Function.update_eq_self_iff, holds]
        rw [hnews, hupd]
        exact h
    | cons b as =>
      rw [List.dropLast_cons_cons, List.map_cons] at hent
      cases hes : olds i with
      | nil =>
        rw [hes] at hent
        cases hent
      | cons e es =>
        have hnext : d.next_node = some b := by
          rw [← Heap.field_of_load hload Bucket.next_node]
          exact hseg.2.1
        obtain ⟨new_ml₁, n₁, chain₁, hmove, h₁, hci, hcx, hconf₁⟩ :=
          rehashNode_spec h hc (List.cons_ne_nil b as) hes hn
        have hfuel₁ : (chain₁ (inl i)).length ≤ fuel := by
          rw [hci]
          exact Nat.le_of_succ_le_succ hfuel
        obtain ⟨new_ml₂, n₂, chain₂, hrest, h₂, hcx', hconf₂⟩ :=
          ih h₁ (by rw [hci]; rfl) hfuel₁ hci
        refine ⟨new_ml₂, n₂, chain₂, ?_, ?_, ?_, hconf₁.trans hconf₂⟩
        · simp [rehashChain, hload, hnext, hmove, hrest]
        · rw [Function.update_self, Function.update_idem, rehashed_cons] at h₂
          exact h₂
        · intro x hx
          rw [hcx' x hx, hcx x hx]

theorem Moving.length_le (h : Moving nodes new_ml n chain olds news) (k : ℕ ⊕ ℕ) :
    (chain k).length ≤ nodes.brk :=
  Heap.length_le_brk nodes (h.chains.nodup k) (h.alloc k)

theorem rehashAll_spec {is ps : List ℕ} (h : Moving nodes new_ml n chain olds news)
    (hn : 0 < n) (hnd : is.Nodup)
    (hps : is.map (fun i => (chain (inl i)).head?) = ps.map some) :
    ∃ new_ml' nodes' chain' olds', rehashAll n ps new_ml nodes = some (new_ml', nodes') ∧
      Moving nodes' new_ml' n chain' olds' (rehashed n news (is.flatMap olds)) ∧
      Confined nodes nodes' chain chain' := by
  induction is generalizing ps nodes new_ml chain olds news with
  | nil =>
    obtain rfl := List.map_eq_nil_iff.mp hps.symm
    refine ⟨new_ml, nodes, chain, olds, rfl, ?_, .refl nodes chain⟩
    have hnews : rehashed n news ([].flatMap olds) = news := by
      funext j
      rw [rehashed, List.flatMap_nil, List.filter_nil, List.append_nil]
    rw [hnews]
    exact h
  | cons i is ih =>
    cases ps with
    | nil => cases hps
    | cons p ps =>
      rw [List.map_cons, List.map_cons, List.cons.injEq] at hps
      obtain ⟨hni, hnd⟩ := List.nodup_cons.mp hnd
      obtain ⟨new_ml₁, n₁, chain₁, hchain, h₁, hcx, hconf₁⟩ :=
        rehashChain_spec h hps.1 hn (h.length_le _)
      have hps₁ : is.map (fun i => (chain₁ (inl i)).head?) = ps.map some := by
        rw [← hps.2]
        apply List.map_congr_left
        intro x hx
        rw [hcx x (fun he => hni (he ▸ hx))]
      obtain ⟨new_ml₂, n₂, chain₂, olds₂, hrest, h₂, hconf₂⟩ := ih h₁ hnd hps₁
      refine ⟨new_ml₂, n₂, chain₂, olds₂, ?_, ?_, hconf₁.trans hconf₂⟩
      · simp [rehashAll, hchain, hrest]
      · have holds : is.flatMap (Function.update olds i []) = is.flatMap olds := by
          apply List.flatMap_congr
          intro x hx
          apply Function.update_of_ne
          rintro rfl
          exact hni hx
        rw [holds, rehashed_append] at h₂
        exact h₂

/-- New nodes are handed out in address order; nothing allocated before changes. -/
theorem createBuckets_spec (n : ℕ) (m : Mem) (hsched : m.sched = Schedule.always) :
    ∃ nodes', createBuckets n m =
        some (List.range' m.nodes.brk n, { m with nodes := nodes' }) ∧
      nextOf nodes' = nextOf m.nodes ∧ entryOf nodes' = entryOf m.nodes ∧
      (∀ a, m.nodes.brk ≤ a → a < m.nodes.brk + n → inValOf nodes' a = some 0) ∧
      (∀ a, a < m.nodes.brk → nodes'.load a = m.nodes.load a) ∧
      (∀ a, m.nodes.brk ≤ a → a < m.nodes.brk + n → (nodes'.load a).isSome) ∧
      m.nodes.brk ≤ nodes'.brk := by
  induction n generalizing m with
  | zero =>
    refine ⟨m.nodes, rfl, rfl, rfl, ?_, fun a _ => rfl, ?_, le_rfl⟩
    · intro a h₁ h₂
      omega
    · intro a h₁ h₂
      omega
  | succ n ih =>
    have hrest : m.sched.rest = m.sched := by rw [hsched]; rfl
    obtain ⟨nodes', hcreate, hnext, hen, hiv, hold, hnew, hbrk⟩ :=
      ih { m with nodes := (m.nodes.malloc { next_node := none, in_val := some 0 }).2 } hsched
    simp only [Heap.malloc_brk] at hcreate hiv hold hnew hbrk
    refine ⟨nodes', ?_, ?_, ?_, ?_, ?_, ?_, (Nat.le_succ _).trans hbrk⟩
    · have hs : m.sched 0 = true := by rw [hsched]; rfl
      unfold createBuckets
      rw [if_pos hs, hrest]
      simp only [Heap.malloc_fst, hcreate, Option.bind_eq_bind, Option.bind_some]
      rfl
    · rw [hnext]
      exact m.nodes.field_malloc_none rfl
    · rw [hen]
      exact m.nodes.field_malloc_none rfl
    · intro a h₁ h₂
      by_cases ha : a = m.nodes.brk
      · subst ha
        rw [inValOf, Heap.field, hold _ (Nat.lt_succ_self _), Heap.malloc_load,
          Function.update_self]
        rfl
      · exact hiv a (by omega) (by omega)
    · intro a ha
      rw [hold a (by omega), Heap.malloc_load, Function.update_of_ne (Nat.ne_of_lt ha)]
    · intro a h₁ h₂
      by_cases ha : a = m.nodes.brk
      · subst ha
        rw [hold _ (Nat.lt_succ_self _), Heap.malloc_load, Function.update_self]
        rfl
      · exact hnew a (by omega) (by omega)

/-- The chains of a table just created at the addresses from `brk` on: the end nodes. -/
def freshChain (brk n j : ℕ) : List Addr :=
  if j < n then [brk + j] else []

theorem getElem?_freshChain (brk n j : ℕ) :
    (List.range' brk n)[j]? = (freshChain brk n j).head? := by
  unfold freshChain
  by_cases hj : j < n
  · rw [if_pos hj, List.getElem?_range' hj, Nat.one_mul]
    rfl
  · rw [if_neg hj]
    exact List.getElem?_eq_none (by simpa using hj)

theorem mem_freshChain {brk n j x : ℕ} (h : x ∈ freshChain brk n j) : j < n ∧ x = brk + j := by
  unfold freshChain at h
  by_cases hj : j < n
  · rw [if_pos hj] at h
    exact ⟨hj, List.mem_singleton.mp h⟩
  · rw [if_neg hj] at h
    cases h

theorem mlCreate_spec (m : Mem) (hsched : m.sched = Schedule.always) :
    ∃ nodes', mlCreate m = some (some ⟨m.size, some (List.range' m.nodes.brk m.size)⟩,
        { m with nodes := nodes' }) ∧
      nextOf nodes' = nextOf m.nodes ∧ entryOf nodes' = entryOf m.nodes ∧
      (∀ a, m.nodes.brk ≤ a → a < m.nodes.brk + m.size → inValOf nodes' a = some 0) ∧
      (∀ a, a < m.nodes.brk → nodes'.load a = m.nodes.load a) ∧
      (∀ a, m.nodes.brk ≤ a → a < m.nodes.brk + m.size → (nodes'.load a).isSome) ∧
      m.nodes.brk ≤ nodes'.brk := by
  obtain ⟨nodes', hcreate, hspec⟩ := createBuckets_spec m.size m hsched
  refine ⟨nodes', ?_, hspec⟩
  have hs : m.sched 0 = true := by rw [hsched]; rfl
  have hs' : m.sched.rest 0 = true := by rw [hsched]; rfl
  have hrest : m.sched.rest.rest = m.sched := by rw [hsched]; rfl
  unfold mlCreate
  rw [if_pos hs, if_pos hs', hrest]
  simp only [hcreate, Option.bind_eq_bind, Option.bind_some]

theorem chains_elim_fresh {chain : ℕ → List Addr} (h : Chains (nextOf nodes) chain)
    (hbrk : ∀ j, ∀ x : ℕ, x ∈ chain j → x < nodes.brk) (n : ℕ) :
    Chains (nextOf nodes) (Sum.elim chain (freshChain nodes.brk n)) := by
  constructor
  · intro k
    cases k with
    | inl i => exact h.seg i
    | inr j =>
      change Seg _ (freshChain nodes.brk n j).head? (freshChain nodes.brk n j) none
      unfold freshChain
      by_cases hj : j < n
      · rw [if_pos hj]
        refine ⟨rfl, ?_⟩
        change nextOf nodes (nodes.brk + j) = none
        rw [nextOf, Heap.field, nodes.fresh _ (Nat.le_add_right _ _)]
        rfl
      · rw [if_neg hj]
        rfl
  · intro k
    cases k with
    | inl i => exact h.nodup i
    | inr j =>
      change (freshChain nodes.brk n j).Nodup
      unfold freshChain
      by_cases hj : j < n
      · rw [if_pos hj]
        exact List.nodup_singleton _
      · rw [if_neg hj]
        exact List.nodup_nil
  · intro k l a hk hl
    cases k with
    | inl i =>
      cases l with
      | inl i' => rw [h.disjoint i i' a hk hl]
      | inr j =>
        have hlt := hbrk i a hk
        have hge := (mem_freshChain hl).2
        omega
    | inr j =>
      cases l with
      | inl i =>
        have hlt := hbrk i a hl
        have hge := (mem_freshChain hk).2
        omega
      | inr j' =>
        have hj := (mem_freshChain hk).2
        have hj' := (mem_freshChain hl).2
        have he : j = j' := Nat.add_left_cancel (hj.symm.trans hj')
        rw [he]

theorem Stores.lt_brk {chain : ℕ → List Addr} (h : Stores nodes ml t chain) (j : ℕ) :
    ∀ x : ℕ, x ∈ chain j → x < nodes.brk := by
  intro a ha
  obtain ⟨d, hd⟩ := Option.isSome_iff_exists.mp (h.alloc j a ha)
  exact nodes.lt_brk hd

theorem moving_start {chain : ℕ → List Addr} (h : Stores nodes ml t chain) {n : ℕ}
    (hnext : nextOf nodes' = nextOf nodes) (hen : entryOf nodes' = entryOf nodes)
    (hiv : ∀ a, nodes.brk ≤ a → a < nodes.brk + n → inValOf nodes' a = some 0)
    (hold : ∀ a, a < nodes.brk → nodes'.load a = nodes.load a)
    (hnew : ∀ a, nodes.brk ≤ a → a < nodes.brk + n → (nodes'.load a).isSome) :
    Moving nodes' ⟨n, some (List.range' nodes.brk n)⟩ n
      (Sum.elim chain (freshChain nodes.brk n)) t.bucket (fun _ => []) := by
  refine ⟨rfl, ⟨_, rfl, List.length_range', getElem?_freshChain nodes.brk n⟩, ?_, ?_, ?_, ?_⟩
  · rw [hnext]
    exact chains_elim_fresh h.chains h.lt_brk n
  · intro i
    rw [hen]
    exact h.entries i
  · intro j hj
    change Filled nodes' (freshChain nodes.brk n j) []
    unfold freshChain
    rw [if_pos hj]
    exact Filled.empty _ (hiv _ (Nat.le_add_right _ _) (by omega))
  · intro k a ha
    cases k with
    | inl i =>
      rw [hold a (h.lt_brk i a ha)]
      exact h.alloc i a ha
    | inr j =>
      obtain ⟨hj, rfl⟩ := mem_freshChain ha
      exact hnew _ (Nat.le_add_right _ _) (by omega)

/-- The last node of every new chain becomes its end. -/
theorem moving_done {olds : ℕ → List MEntryPtr}
    (h : Moving nodes new_ml (t.size * 2) chain olds
      (rehashed (t.size * 2) (fun _ => []) t.entries)) (hpos : 0 < t.size) :
    Stores nodes new_ml t.grow (chain ∘ inr) := by
  refine ⟨h.size, Nat.mul_pos hpos Nat.two_pos, h.heads, h.chains.comp Sum.inr_injective, ?_, ?_⟩
  · intro j
    have hbucket : t.grow.bucket j = (rehashed (t.size * 2) (fun _ => []) t.entries j).dropLast :=
      rfl
    by_cases hj : j < t.size * 2
    · rw [hbucket]
      exact (h.news j hj).dropLast
    · obtain ⟨hash, -, hlen, hheads⟩ := h.heads
      have hnil : chain (inr j) = [] := by
        rw [← List.head?_eq_none_iff, ← hheads j]
        exact List.getElem?_eq_none (by omega)
      have hnone : t.grow.bucket j = [] := by
        rw [hbucket, rehashed, List.nil_append, List.filter_eq_nil_iff.mpr]
        · rfl
        · intro e _
          have hlt := meHash_lt e.deref (Nat.mul_pos hpos Nat.two_pos)
          rw [decide_eq_true_eq]
          omega
      rw [hnone]
      change ((chain (inr j)).dropLast).map _ = _
      rw [hnil]
      rfl
  · intro j a ha
    exact h.alloc (inr j) a ha

theorem resize_spec {chain : ℕ → List Addr} (h : Stores m.nodes ml t chain)
    (hsched : m.sched = Schedule.always) :
    ∃ ml' m' chain', resize m ml = some (ml', m') ∧ Stores m'.nodes ml' t.grow chain' ∧
      m'.sched = Schedule.always ∧ m'.size = t.grow.size ∧
      Confined m.nodes m'.nodes chain chain' := by
  obtain ⟨nodes', hcreate, hnext, hen, hiv, hold, hnew, hbrk⟩ :=
    mlCreate_spec { m with size := ml.size * 2 } hsched
  have hstart := moving_start h hnext hen hiv hold hnew
  obtain ⟨hash, hhash, hlen, hheads⟩ := h.heads
  have hps : (List.range t.size).map
      (fun i => (Sum.elim chain (freshChain m.nodes.brk (ml.size * 2)) (inl i)).head?) =
        hash.map some := by
    apply List.ext_getElem
    · simp [hlen]
    · intro i h₁ h₂
      have hi := hheads i
      rw [List.getElem?_eq_getElem (by simpa using h₂)] at hi
      simpa using hi.symm
  have hpos : 0 < ml.size * 2 := by
    rw [h.size]
    exact Nat.mul_pos h.pos Nat.two_pos
  have hfresh : Confined m.nodes nodes' chain
      (Sum.elim chain (freshChain m.nodes.brk (ml.size * 2))) := by
    refine ⟨⟨fun a ha _ => hold a ha, hbrk⟩, ?_⟩
    intro k a ha
    cases k with
    | inl i => exact Or.inl ⟨i, ha⟩
    | inr j =>
      obtain ⟨-, rfl⟩ := mem_freshChain ha
      exact Or.inr (Nat.le_add_right _ _)
  obtain ⟨new_ml, nodes'', chain', olds', hall, hdone, hconf⟩ :=
    rehashAll_spec hstart hpos List.nodup_range hps
  rw [h.size] at hdone
  refine ⟨new_ml, { m with nodes := nodes'', size := ml.size * 2 }, chain' ∘ inr, ?_,
    moving_done hdone h.pos, hsched, congrArg (· * 2) h.size, (hfresh.trans hconf).comp inr⟩
  simp only [resize, hcreate, hhash, Option.bind_eq_bind, Option.bind_some]
  rw [hall]
  rfl

theorem mlAdd_spec {chain : ℕ → List Addr} (h : Stores m.nodes ml t chain)
    (hsched : m.sched = Schedule.always) (me : MEntryPtr) :
    ∃ ml' m' chain', mlAdd m ml me = some (1, ml', m') ∧ Stores m'.nodes ml' (t.add me) chain' ∧
      m'.sched = Schedule.always ∧ (m.size = t.size → m'.size = (t.add me).size) ∧
      (0 < m.size → 0 < m'.size) ∧ Confined m.nodes m'.nodes chain chain' := by
  have hlookup := mlLookup_spec h me.deref
  cases hfound : t.lookup me.deref with
  | some e =>
    have hadd : t.add me = t := by
      rw [Table.add, hfound]
      rfl
    refine ⟨ml, m, chain, ?_, ?_, hsched, ?_, id, .refl m.nodes chain⟩
    · simp only [mlAdd, hlookup, hfound, Option.bind_eq_bind, Option.bind_some]
    · rw [hadd]
      exact h
    · rw [hadd]
      exact id
  | none =>
    have hs : m.sched 0 = true := by rw [hsched]; rfl
    have hrest : m.sched.rest = Schedule.always := by rw [hsched]; rfl
    obtain ⟨first, cur, n₁, n₂, chain₁, hfirst, htail, hset₁, hset₂, h₁, hpush⟩ := h.push me
    have hadd : t.add me = if t.size < (t.bucket (meHash me.deref t.size)).length
        then (t.push me).grow else t.push me := by
      rw [Table.add, hfound]
      rfl
    by_cases hfull : t.size < (t.bucket (meHash me.deref t.size)).length
    · obtain ⟨ml', m', chain', hresize, h', hsched', hsize', hconf⟩ :=
        resize_spec (show Stores { m with nodes := n₂, sched := m.sched.rest }.nodes ml _ _ from h₁)
          hrest
      have hpos : 0 < m'.size := by
        rw [hsize']
        exact Nat.mul_pos h.pos Nat.two_pos
      refine ⟨ml', m', chain', ?_, ?_, hsched', ?_, fun _ => hpos, hpush.trans hconf⟩
      · simp only [mlAdd, hlookup, hfound, hs, h.size, Heap.malloc_fst, Heap.malloc_brk, hfirst,
          htail, hset₁, hset₂, hfull, hresize, Option.bind_eq_bind, Option.bind_some, if_true]
      · rw [hadd, if_pos hfull]
        exact h'
      · rw [hadd, if_pos hfull]
        exact fun _ => hsize'
    · refine ⟨ml, { m with nodes := n₂, sched := m.sched.rest }, chain₁, ?_, ?_, hrest, ?_, id,
        hpush⟩
      · simp only [mlAdd, hlookup, hfound, hs, h.size, Heap.malloc_fst, Heap.malloc_brk, hfirst,
          htail, hset₁, hset₂, hfull, Option.bind_eq_bind, Option.bind_some, if_true, if_false]
      · rw [hadd, if_neg hfull]
        exact h₁
      · rw [hadd, if_neg hfull]
        exact id

/-- A list that `ml_create` has made stores the empty table, in new nodes. -/
theorem mlCreate_stores (m : Mem) (hsched : m.sched = Schedule.always) (hpos : 0 < m.size) :
    ∃ ml nodes' chain, mlCreate m = some (some ml, { m with nodes := nodes' }) ∧
      Stores nodes' ml (.empty m.size) chain ∧
      Confined m.nodes nodes' (fun _ : ℕ => []) chain := by
  obtain ⟨nodes', hcreate, hnext, -, -, hold, hnew, hbrk⟩ := mlCreate_spec m hsched
  refine ⟨_, nodes', freshChain m.nodes.brk m.size, hcreate, ⟨rfl, hpos, ?_, ?_, ?_, ?_⟩,
    ⟨fun a ha _ => hold a ha, hbrk⟩, ?_⟩
  · exact ⟨_, rfl, List.length_range', getElem?_freshChain m.nodes.brk m.size⟩
  · have hempty : Chains (nextOf m.nodes) (fun _ : ℕ => []) := by
      constructor
      · intro _
        rfl
      · intro _
        exact List.nodup_nil
      · intro _ _ _ hmem
        cases hmem
    have hfresh := chains_elim_fresh hempty (fun _ _ hmem => by cases hmem) m.size
    rw [hnext]
    exact hfresh.comp Sum.inr_injective
  · intro j
    change ((freshChain m.nodes.brk m.size j).dropLast).map _ = []
    unfold freshChain
    by_cases hj : j < m.size
    · rw [if_pos hj]
      rfl
    · rw [if_neg hj]
      rfl
  · intro j a ha
    obtain ⟨hj, rfl⟩ := mem_freshChain ha
    exact hnew _ (Nat.le_add_right _ _) (Nat.add_lt_add_left hj _)
  · intro j a ha
    obtain ⟨-, rfl⟩ := mem_freshChain ha
    exact Or.inr (Nat.le_add_right _ _)

theorem stores_create :
    ∃ ml m chain, mlCreate (.initial Schedule.always) = some (some ml, m) ∧
      Stores m.nodes ml (.empty buckets) chain ∧ m.sched = Schedule.always ∧
      m.size = buckets := by
  obtain ⟨ml, nodes', chain, hcreate, hstores, -⟩ :=
    mlCreate_stores (.initial Schedule.always) rfl (by decide)
  exact ⟨ml, _, chain, hcreate, hstores, rfl, rfl⟩

end CIS415.MList
