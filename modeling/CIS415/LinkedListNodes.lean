import CIS415.LinkedListRing

/-!
# The list in its nodes

`Ringed` says which sequence a list keeps in its ring, whatever its allocations have returned so far. A
call that needs a node either gets one or leaves the ring as it was, also when a refill of the free list
stops half-way; all other calls only move nodes between the ring and the free list.
-/

namespace CIS415.LinkedList

open Pointer

variable {E : Type} {ll : LinkedList E} {as fs held l r : List Addr} {b d p : Addr}
  {xs : List (Option E)}

structure Ringed (ll : LinkedList E) (as fs held : List Addr) (xs : List (Option E)) : Prop where
  shape : Shape ll.nodes ll.freel as fs held
  size : ll.size = as.length
  elements : as.map (elementOf ll.nodes) = xs

theorem Ringed.length_eq (h : Ringed ll as fs held xs) : as.length = xs.length := by
  rw [← h.elements, List.length_map]

theorem Ringed.size_eq (h : Ringed ll as fs held xs) : ll.size = xs.length := by
  rw [h.size, h.length_eq]

theorem Ringed.nil_iff (h : Ringed ll as fs held xs) : as = [] ↔ xs = [] := by
  rw [← h.elements, List.map_eq_nil_iff]

theorem insertIdx_length_append (ys zs : List (Option E)) (e : Option E) :
    (ys ++ zs).insertIdx ys.length e = ys ++ e :: zs := by
  induction ys with
  | nil => rfl
  | cons y ys ih =>
    rw [List.cons_append, List.length_cons, List.insertIdx_succ_cons, ih]
    rfl

theorem Ringed.notMem_of_held (h : Ringed ll as fs (p :: held) xs) : p ∉ sentinel :: as := by
  intro hp
  have hn := List.nodup_append.mp
    (show (sentinel :: as ++ (fs ++ p :: held)).Nodup from h.shape.nodup)
  exact hn.2.2 p hp p (by simp) rfl

theorem Ringed.putEntry (h : Ringed ll as fs (p :: held) xs) :
    ∃ ll', putEntry ll p = some ll' ∧ Ringed ll' as (p :: fs) held xs ∧ ll'.sched = ll.sched := by
  obtain ⟨nodes', hput, hshape, hel⟩ := Shape.putEntry ll h.shape
  refine ⟨_, hput, ⟨hshape, h.size, ?_⟩, rfl⟩
  rw [hel, map_update_of_notMem (fun hp => h.notMem_of_held (List.mem_cons_of_mem _ hp))]
  exact h.elements

theorem Ringed.malloc (h : Ringed ll as fs held xs) :
    Ringed { ll with nodes := (ll.nodes.malloc {}).2, sched := ll.sched.rest } as fs
      (ll.nodes.brk :: held) xs := by
  refine ⟨h.shape.malloc, h.size, ?_⟩
  rw [elementOf_malloc]
  exact h.elements

theorem rest_always (h : ll.sched = Schedule.always) : ll.sched.rest = Schedule.always := by
  rw [h]
  rfl

/-- However far the loop gets, every node it has allocated is on the free list. -/
theorem refill_spec (n : ℕ) (h : Ringed ll as fs [] xs) :
    ∃ ll' fs', refill n ll = some ll' ∧ Ringed ll' as fs' [] xs ∧
      (ll.sched = Schedule.always →
        ll'.sched = Schedule.always ∧ fs'.length = fs.length + n) := by
  induction n generalizing ll fs with
  | zero => exact ⟨ll, fs, rfl, h, fun hs => ⟨hs, rfl⟩⟩
  | succ n ih =>
    unfold refill
    by_cases hs : ll.sched 0 = true
    · obtain ⟨ll₁, hput, h₁, hsched⟩ := h.malloc.putEntry
      obtain ⟨ll₂, fs₂, hrefill, h₂, hlen⟩ := ih h₁
      refine ⟨ll₂, fs₂, ?_, h₂, fun halways => ?_⟩
      · rw [if_pos hs]
        change (CIS415.LinkedList.putEntry _ ll.nodes.brk).bind (refill n) = _
        exact (congrArg (Option.bind · (refill n)) hput).trans hrefill
      · obtain ⟨halways', hlen'⟩ := hlen (hsched.trans (rest_always halways))
        rw [List.length_cons] at hlen'
        exact ⟨halways', by omega⟩
    · refine ⟨{ ll with sched := ll.sched.rest }, fs, if_neg hs, ⟨h.shape, h.size, h.elements⟩, ?_⟩
      intro halways
      rw [halways] at hs
      exact absurd rfl hs

/-- The node that is handed out, if there is one, is on neither list. -/
theorem getEntry_spec (h : Ringed ll as fs [] xs) :
    ∃ r ll' fs', getEntry ll = some (r, ll') ∧ Ringed ll' as fs' r.toList xs ∧
      (ll.sched = Schedule.always → r.isSome ∧ ll'.sched = Schedule.always) := by
  obtain ⟨ll₁, fs₁, hrefill, h₁, hsched⟩ : ∃ ll₁ fs₁,
      (if ll.freel = none then refill flIncrement ll else some ll) = some ll₁ ∧
        Ringed ll₁ as fs₁ [] xs ∧
        (ll.sched = Schedule.always → fs₁ ≠ [] ∧ ll₁.sched = Schedule.always) := by
    by_cases hf : ll.freel = none
    · obtain ⟨ll₁, fs₁, hrefill, h₁, hlen⟩ := refill_spec flIncrement h
      refine ⟨ll₁, fs₁, by rw [if_pos hf]; exact hrefill, h₁, fun halways => ?_⟩
      obtain ⟨halways', hlen'⟩ := hlen halways
      refine ⟨?_, halways'⟩
      rintro rfl
      exact absurd hlen' (by simp [flIncrement])
    · refine ⟨ll, fs, if_neg hf, h, fun halways => ⟨?_, halways⟩⟩
      rintro rfl
      exact hf h.shape.free
  unfold getEntry
  rw [hrefill]
  cases fs₁ with
  | nil =>
    have hfreel : ll₁.freel = none := h₁.shape.free
    refine ⟨none, ll₁, [], ?_, h₁, fun halways => absurd rfl (hsched halways).1⟩
    simp only [Option.bind_eq_bind, Option.bind_some, hfreel]
  | cons f fs₁ =>
    obtain ⟨hfreel, hfree⟩ := h₁.shape.free
    obtain ⟨n, hn⟩ := Option.isSome_iff_exists.mp (h₁.shape.isSome (a := f) (by simp))
    have hnext : nextOf ll₁.nodes f = n.next := Heap.field_of_load hn _
    refine ⟨some f, { ll₁ with freel := n.next }, fs₁, ?_, ⟨?_, h₁.size, h₁.elements⟩,
      fun halways => ⟨rfl, (hsched halways).2⟩⟩
    · simp only [Option.bind_eq_bind, Option.bind_some, hfreel, hn]
    · refine h₁.shape.perm h₁.shape.ring ?_ ?_
      · rw [← hnext]
        exact hfree
      · rw [List.append_nil]
        exact (List.perm_append_singleton f fs₁).append_left as

theorem putEntry_freel {ll' : LinkedList E} (h : putEntry ll p = some ll') : ll'.freel = some p := by
  obtain ⟨nodes, -, h⟩ := Option.bind_eq_some_iff.mp h
  obtain ⟨nodes', -, heq⟩ := Option.bind_eq_some_iff.mp h
  rw [← Option.some.inj heq]

theorem refill_freel {n : ℕ} {ll' : LinkedList E} (hf : ll.freel ≠ none)
    (h : refill n ll = some ll') : ll'.freel ≠ none := by
  induction n generalizing ll with
  | zero =>
    rw [← Option.some.inj h]
    exact hf
  | succ n ih =>
    unfold refill at h
    split_ifs at h
    · obtain ⟨ll₁, hput, hrest⟩ := Option.bind_eq_some_iff.mp h
      refine ih ?_ hrest
      rw [putEntry_freel hput]
      exact Option.some_ne_none _
    · rw [← Option.some.inj h]
      exact hf

theorem getEntry_eq_none_iff {r : Option Addr} {ll' : LinkedList E}
    (h : getEntry ll = some (r, ll')) : r = none ↔ ll.freel = none ∧ ll.sched 0 = false := by
  obtain ⟨ll₁, hrefill, hget⟩ := Option.bind_eq_some_iff.mp h
  have hnone : r = none ↔ ll₁.freel = none := by
    cases hfreel : ll₁.freel with
    | none =>
      rw [hfreel] at hget
      obtain ⟨rfl, -⟩ := Prod.mk.inj (Option.some.inj hget)
      exact iff_of_true rfl rfl
    | some p =>
      rw [hfreel] at hget
      obtain ⟨n, -, heq⟩ := Option.bind_eq_some_iff.mp hget
      obtain ⟨rfl, -⟩ := Prod.mk.inj (Option.some.inj heq)
      exact iff_of_false (Option.some_ne_none _) (Option.some_ne_none _)
  rw [hnone]
  by_cases hf : ll.freel = none
  · rw [if_pos hf] at hrefill
    by_cases hs : ll.sched 0 = true
    · have hfilled : ll₁.freel ≠ none := by
        rw [flIncrement, refill, if_pos hs] at hrefill
        obtain ⟨ll₂, hput, hrest⟩ := Option.bind_eq_some_iff.mp hrefill
        refine refill_freel ?_ hrest
        rw [putEntry_freel hput]
        exact Option.some_ne_none _
      refine iff_of_false hfilled ?_
      rintro ⟨-, hfail⟩
      exact Bool.false_ne_true (hfail.symm.trans hs)
    · rw [flIncrement, refill, if_neg hs] at hrefill
      rw [← Option.some.inj hrefill]
      exact iff_of_true hf ⟨hf, Bool.eq_false_iff.mpr hs⟩
  · rw [if_neg hf] at hrefill
    rw [← Option.some.inj hrefill]
    exact iff_of_false hf fun hfail => hf hfail.1

/-- A held node goes into the ring between `b` and `d`. -/
theorem place_spec (h : Ringed ll (l ++ r) fs [p] xs) (hb : Between sentinel l r b d)
    (e : Option E) :
    ∃ ll', place ll b p d e = some (1, ll') ∧
      Ringed ll' (l ++ p :: r) fs [] (xs.insertIdx l.length e) ∧ ll'.sched = ll.sched := by
  have hp := h.notMem_of_held
  have hbmem : b ∈ sentinel :: (l ++ (r ++ (fs ++ [p]))) :=
    List.mem_append_left _ (show b ∈ sentinel :: l from hb.mem_before)
  have hdmem : d ∈ sentinel :: (l ++ (r ++ (fs ++ [p]))) := by
    rcases hb.mem_after with hd | hd
    · rw [hd]
      exact List.mem_cons_self
    · simp [hd]
  rw [← List.append_assoc l] at hbmem hdmem
  have hpmem : p ∈ sentinel :: ((l ++ r) ++ (fs ++ [p])) := by simp
  obtain ⟨n₁, hset, hw₁⟩ := setElement_spec ll.nodes (h.shape.isSome hpmem) e
  have h₁ := h.shape.setElement hw₁
  obtain ⟨n₂, hlink, hw₂⟩ := link_spec (h₁.isSome hbmem) (h₁.isSome hpmem) (h₁.isSome hdmem)
  refine ⟨{ ll with nodes := n₂, size := ll.size + 1 }, by simp [place, hset, hlink], ?_⟩
  have hfsb : b ∉ fs := by
    intro hbfs
    have hn := List.nodup_append.mp
      (show (sentinel :: (l ++ r) ++ (fs ++ [p])).Nodup from h.shape.nodup)
    exact hn.2.2 b (List.mem_append_left r (show b ∈ sentinel :: l from hb.mem_before)) b
      (List.mem_append_left _ hbfs) rfl
  have hfsp : p ∉ fs := by
    intro hpfs
    have hn := (List.nodup_append.mp
      (show (sentinel :: (l ++ r) ++ (fs ++ [p])).Nodup from h.shape.nodup)).2.1
    exact (List.nodup_append.mp hn).2.2 p hpfs p List.mem_cons_self rfl
  have hshape : Shape n₂ ll.freel (l ++ p :: r) fs [] := by
    constructor
    · rw [hw₂.next, hw₂.prev]
      exact h₁.ring.link hb hp
    · rw [hw₂.next, seg_update hfsb, seg_update hfsp]
      exact h₁.free
    · rw [hw₂.brk]
      refine List.Perm.trans (List.Perm.cons _ ?_) h₁.cells
      have hmid : (l ++ p :: (r ++ fs)).Perm (p :: (l ++ (r ++ fs))) := List.perm_middle
      have hend := (List.perm_append_singleton p ((l ++ r) ++ fs)).symm
      simp only [List.append_assoc, List.cons_append, List.append_nil] at hmid hend ⊢
      exact hmid.trans hend
    · intro a ha
      rw [hw₂.alloc]
      exact h₁.alloc a (hw₂.brk ▸ ha)
  refine ⟨⟨hshape, ?_, ?_⟩, rfl⟩
  · have hsize : ll.size = (l ++ r).length := h.size
    simp only [hsize, List.length_append, List.length_cons]
    push_cast
    omega
  · have hpl : p ∉ l := fun hpl => hp (by simp [hpl])
    have hpr : p ∉ r := fun hpr => hp (by simp [hpr])
    rw [hw₂.element, hw₁.element, ← h.elements, List.map_append, List.map_append, List.map_cons,
      map_update_of_notMem hpl, map_update_of_notMem hpr, Function.update_self]
    have hl : l.length = (l.map (elementOf ll.nodes)).length := by rw [List.length_map]
    rw [hl, insertIdx_length_append]

theorem removeNode_spec (h : Ringed ll (l ++ p :: r) fs [] xs) :
    ∃ ll', removeNode ll p = some (1, xs[l.length]?, ll') ∧
      Ringed ll' (l ++ r) (p :: fs) [] (xs.eraseIdx l.length) ∧ ll'.sched = ll.sched := by
  obtain ⟨b, d, hb⟩ := exists_between sentinel l r
  obtain ⟨hbp, hpd⟩ := h.shape.ring.neighbours_of_mem hb
  have hn := h.shape.nodup
  have hbmem := hb.mem_before
  have hne : b ≠ p := by
    intro he
    have hn' := List.nodup_append.mp
      (show (sentinel :: l ++ (p :: r ++ (fs ++ []))).Nodup by
        simpa only [List.cons_append, List.append_assoc] using hn)
    exact hn'.2.2 b hbmem p (by simp) he
  obtain ⟨n, hload, hnext⟩ := Heap.load_of_field hpd.1
  obtain ⟨n₁, hunlink, hw⟩ := unlink_spec hbp hpd hne
  have hbfs : b ∉ fs := by
    intro hbfs
    have hn' := List.nodup_append.mp
      (show (sentinel :: l ++ (p :: r ++ (fs ++ []))).Nodup by
        simpa only [List.cons_append, List.append_assoc] using hn)
    exact hn'.2.2 b hbmem b (by simp [hbfs]) rfl
  have h₁ : Ringed { ll with nodes := n₁, size := ll.size - 1 } (l ++ r) fs [p]
      (xs.eraseIdx l.length) := by
    refine ⟨⟨?_, ?_, ?_, ?_⟩, ?_, ?_⟩
    · rw [hw.next, hw.prev]
      exact h.shape.ring.unlink hb
    · rw [hw.next, seg_update hbfs]
      exact h.shape.free
    · rw [hw.brk]
      refine List.Perm.trans (List.Perm.cons _ ?_) h.shape.cells
      have hmid : (p :: (l ++ (r ++ fs))).Perm (l ++ p :: (r ++ fs)) := List.perm_middle.symm
      have hend := List.perm_append_singleton p ((l ++ r) ++ fs)
      simp only [List.append_assoc, List.cons_append, List.append_nil] at hmid hend ⊢
      exact hend.trans hmid
    · intro a ha
      rw [hw.alloc]
      exact h.shape.alloc a (hw.brk ▸ ha)
    · have hsize : ll.size = (l ++ p :: r).length := h.size
      simp only [hsize, List.length_append, List.length_cons]
      push_cast
      omega
    · rw [hw.element, ← h.elements, List.map_append, List.map_append,
        List.eraseIdx_append_of_length_le (by simp)]
      simp
  obtain ⟨n₂, hput, hshape, hel⟩ := Shape.putEntry { ll with nodes := n₁ } h₁.shape
  refine ⟨{ ll with nodes := n₂, freel := some p, size := ll.size - 1 }, ?_, ⟨hshape, h₁.size, ?_⟩,
    rfl⟩
  · have hx : xs[l.length]? = some n.element := by
      rw [← h.elements]
      simp [elementOf, Heap.field_of_load hload]
    simp [removeNode, hload, hunlink, hput, hx]
  · rw [hel, map_update_of_notMem (fun hp => h₁.notMem_of_held (List.mem_cons_of_mem _ hp))]
    exact h₁.elements

theorem advance_seg {q : Addr} {nodes : Heap (LLNode E)}
    (h : Seg (nextOf nodes) (some p) as (some q)) : advance nodes as.length p = some q := by
  induction as generalizing p with
  | nil => exact h
  | cons a as ih =>
    obtain ⟨hp, hseg⟩ := h
    obtain rfl := Option.some.inj hp
    obtain ⟨c, hc⟩ : ∃ c, nextOf nodes p = some c := by
      cases as with
      | nil => exact ⟨q, hseg⟩
      | cons c as => exact ⟨c, hseg.1⟩
    rw [hc] at hseg
    obtain ⟨n, hn, hnext⟩ := Heap.load_of_field hc
    simp only [List.length_cons, advance, hn, hnext, Option.bind_eq_bind, Option.bind_some]
    exact ih hseg

theorem elementsFrom_seg {q : Addr} {nodes : Heap (LLNode E)}
    (h : Seg (nextOf nodes) (some p) as (some q)) :
    elementsFrom nodes as.length p = some (as.map (elementOf nodes)) := by
  induction as generalizing p with
  | nil => rfl
  | cons a as ih =>
    obtain ⟨hp, hseg⟩ := h
    obtain rfl := Option.some.inj hp
    obtain ⟨c, hc⟩ : ∃ c, nextOf nodes p = some c := by
      cases as with
      | nil => exact ⟨q, hseg⟩
      | cons c as => exact ⟨c, hseg.1⟩
    rw [hc] at hseg
    obtain ⟨n, hn, hnext⟩ := Heap.load_of_field hc
    have hel : elementOf nodes p = n.element := Heap.field_of_load hn _
    simp only [List.length_cons, elementsFrom, hn, hnext, ih hseg, hel, List.map_cons,
      Option.bind_eq_bind, Option.bind_some]

theorem Ringed.first (h : Ringed ll as fs held xs) :
    ∃ n f, ll.nodes.load sentinel = some n ∧ n.next = some f ∧ f = as.headD sentinel := by
  have hseg := h.shape.ring.forward
  have hf : nextOf ll.nodes sentinel = some (as.headD sentinel) := by
    cases as with
    | nil => exact hseg
    | cons a as => exact hseg.1
  obtain ⟨n, hn, hnext⟩ := Heap.load_of_field hf
  exact ⟨n, _, hn, hnext, rfl⟩

theorem Ringed.last (h : Ringed ll as fs held xs) :
    ∃ n f, ll.nodes.load sentinel = some n ∧ n.prev = some f ∧ f = as.getLastD sentinel := by
  have hseg := h.shape.ring.backward
  have hf : prevOf ll.nodes sentinel = some (as.getLastD sentinel) := by
    rcases List.eq_nil_or_concat as with rfl | ⟨bs, a, rfl⟩
    · exact hseg
    · rw [List.concat_eq_append, List.reverse_concat] at hseg
      simpa using hseg.1
  obtain ⟨n, hn, hprev⟩ := Heap.load_of_field hf
  exact ⟨n, _, hn, hprev, rfl⟩

theorem Ringed.ne_sentinel (h : Ringed ll (l ++ p :: r) fs held xs) : p ≠ sentinel := by
  rintro rfl
  exact (List.nodup_cons.mp h.shape.ring.nodup).1 (by simp)

/-- `nodeAt` finds the node of the index. -/
theorem nodeAt_spec (h : Ringed ll (l ++ p :: r) fs held xs) :
    nodeAt ll l.length = some p := by
  obtain ⟨n, f, hn, hnext, -⟩ := h.first
  have hseg := h.shape.ring.forward
  have hf : nextOf ll.nodes sentinel = some f := by rw [nextOf, Heap.field_of_load hn, hnext]
  obtain ⟨q, hl, hq, -⟩ := seg_append.mp hseg
  rw [hf, hq] at hl
  simp only [nodeAt, hn, hnext, Option.bind_eq_bind, Option.bind_some, Int.toNat_natCast]
  exact advance_seg hl

/-- The loop of `ll_insert` ends on the node before the index. -/
theorem advance_sentinel (h : Ringed ll (l ++ r) fs held xs) (hb : Between sentinel l r b d) :
    advance ll.nodes l.length sentinel = some b := by
  obtain ⟨l', hl⟩ := hb.before
  have hseg : Seg (nextOf ll.nodes) (some sentinel) (sentinel :: l ++ r) (some sentinel) :=
    ⟨rfl, h.shape.ring.forward⟩
  rw [hl, List.append_assoc] at hseg
  obtain ⟨q, hl', hq, -⟩ := seg_append.mp hseg
  have hlen : l.length = l'.length := by
    have he := congrArg List.length hl
    simp only [List.length_cons, List.length_append, List.length_nil] at he
    omega
  rw [hlen]
  rw [hq] at hl'
  exact advance_seg hl'

/-- Every index below the size splits the ring at its node. -/
theorem Ringed.split (h : Ringed ll as fs held xs) {i : ℤ} (h0 : 0 ≤ i) (hi : i < xs.length) :
    ∃ l p r, as = l ++ p :: r ∧ i = l.length := by
  have hlen := h.length_eq
  have hlt : i.toNat < as.length := by omega
  refine ⟨as.take i.toNat, as[i.toNat], as.drop (i.toNat + 1), ?_, ?_⟩
  · rw [List.getElem_cons_drop, List.take_append_drop]
  · rw [List.length_take]
    omega

theorem Ringed.element (h : Ringed ll (l ++ p :: r) fs held xs) :
    ∃ n, ll.nodes.load p = some n ∧ xs[l.length]? = some n.element := by
  obtain ⟨n, hn⟩ := Option.isSome_iff_exists.mp (h.shape.isSome (a := p) (by simp))
  refine ⟨n, hn, ?_⟩
  rw [← h.elements]
  simp [elementOf, Heap.field_of_load hn]

/-- The nodes `rs` still to visit and the free list `fs` during `purge`, which breaks the ring up. -/
structure Purging (nodes : Heap (LLNode E)) (freel : Option Addr) (cur : Addr)
    (rs fs : List Addr) : Prop where
  seg : Seg (nextOf nodes) (some cur) rs (some sentinel)
  free : Seg (nextOf nodes) freel fs none
  cells : (sentinel :: (rs ++ fs)).Perm (List.range nodes.brk)
  alloc : ∀ a : ℕ, a < nodes.brk → (nodes.load a).isSome

theorem Purging.step {cur : Addr} {rs : List Addr}
    (h : Purging ll.nodes ll.freel cur (cur :: rs) fs) :
    ∃ n next nodes', ll.nodes.load cur = some n ∧ n.next = some next ∧
      LinkedList.putEntry ll cur = some { ll with nodes := nodes', freel := some cur } ∧
      Purging nodes' (some cur) next rs (cur :: fs) ∧ nodes'.brk = ll.nodes.brk ∧
      rs.map (elementOf nodes') = rs.map (elementOf ll.nodes) := by
  have hn := h.cells.nodup_iff.mpr List.nodup_range
  have hcr : cur ∉ rs := by
    intro hc
    exact (List.nodup_cons.mp (List.nodup_cons.mp hn).2).1 (by simp [hc])
  have hcf : cur ∉ fs := by
    intro hc
    exact (List.nodup_cons.mp (List.nodup_cons.mp hn).2).1 (by simp [hc])
  obtain ⟨next, hnext⟩ : ∃ next, nextOf ll.nodes cur = some next := by
    have hseg := h.seg.2
    cases rs with
    | nil => exact ⟨_, hseg⟩
    | cons r rs => exact ⟨_, hseg.1⟩
  obtain ⟨n, hload, hnd⟩ := Heap.load_of_field hnext
  obtain ⟨nodes', hput, hw⟩ := putEntry_spec ll (Heap.isSome_of_field hnext)
  refine ⟨n, next, nodes', hload, hnd, hput, ⟨?_, ?_, ?_, ?_⟩, hw.brk, ?_⟩
  · rw [hw.next, seg_update hcr, ← hnext]
    exact h.seg.2
  · rw [hw.next, seg_cons, Function.update_self, seg_update hcf]
    exact ⟨rfl, h.free⟩
  · rw [hw.brk]
    exact (List.perm_middle.cons sentinel).trans h.cells
  · intro a ha
    rw [hw.alloc]
    exact h.alloc a (hw.brk ▸ ha)
  · rw [hw.element]
    exact map_update_of_notMem hcr

theorem purgeFrom_spec (uf : Bool) {cur : Addr} {rs : List Addr} {fuel : ℕ}
    (h : Purging ll.nodes ll.freel cur rs fs) (hfuel : rs.length < fuel) :
    ∃ nodes' freel' fs', purgeFrom uf fuel cur ll =
        some (if uf then rs.map (elementOf ll.nodes) else [],
          { ll with nodes := nodes', freel := freel' }) ∧
      Purging nodes' freel' sentinel [] fs' ∧ nodes'.brk = ll.nodes.brk := by
  induction rs generalizing cur ll fs fuel with
  | nil =>
    obtain ⟨fuel, rfl⟩ := Nat.exists_eq_succ_of_ne_zero (Nat.ne_zero_of_lt hfuel)
    have hc : cur = sentinel := Option.some.inj h.seg
    refine ⟨ll.nodes, ll.freel, fs, ?_, hc ▸ h, rfl⟩
    unfold purgeFrom
    rw [if_pos hc]
    cases uf <;> rfl
  | cons r rs ih =>
    obtain ⟨fuel, rfl⟩ := Nat.exists_eq_succ_of_ne_zero (Nat.ne_zero_of_lt hfuel)
    obtain rfl : cur = r := Option.some.inj h.seg.1
    obtain ⟨n, next, nodes₁, hload, hnd, hput, h₁, hbrk, hel⟩ := h.step
    have h₁' : Purging ({ ll with nodes := nodes₁, freel := some cur } : LinkedList E).nodes
        ({ ll with nodes := nodes₁, freel := some cur } : LinkedList E).freel next rs (cur :: fs) :=
      h₁
    obtain ⟨nodes', freel', fs', hpurge, h', hbrk'⟩ :=
      ih h₁' (Nat.lt_of_succ_lt_succ hfuel)
    refine ⟨nodes', freel', fs', ?_, h', hbrk'.trans hbrk⟩
    have hne : cur ≠ sentinel := by
      rintro rfl
      exact (List.nodup_cons.mp (h.cells.nodup_iff.mpr List.nodup_range)).1 (by simp)
    have hce : elementOf ll.nodes cur = n.element := Heap.field_of_load hload _
    unfold purgeFrom
    rw [if_neg hne]
    simp only [hload, hnd, hput, hpurge, hel, Option.bind_eq_bind, Option.bind_some]
    cases uf <;> simp [hce]

/-- A call that touches no allocation leaves the list `ll'`, which keeps `xs`. -/
structure Moves (ll ll' : LinkedList E) (xs : List (Option E)) : Prop where
  ringed : ∃ as fs, Ringed ll' as fs [] xs
  sched : ll'.sched = ll.sched

/-- A call that adds an element reports 1 and keeps `ys`, or finds no node, reports 0 and keeps the ring
as it was. While allocations succeed it finds one. -/
structure Adds (ll ll' : LinkedList E) (as : List Addr) (xs ys : List (Option E)) (v : ℤ) : Prop where
  ringed : (v = 0 ∧ ∃ fs, Ringed ll' as fs [] xs) ∨ (v = 1 ∧ ∃ bs fs, Ringed ll' bs fs [] ys)
  always : ll.sched = Schedule.always → v = 1 ∧ ll'.sched = Schedule.always

theorem Adds.of_none {ll' : LinkedList E} {ys : List (Option E)} (h : Ringed ll' as fs [] xs)
    (halways : ll.sched = Schedule.always →
      (none : Option Addr).isSome ∧ ll'.sched = Schedule.always) : Adds ll ll' as xs ys 0 :=
  ⟨.inl ⟨rfl, fs, h⟩, fun hs => absurd (halways hs).1 (by simp)⟩

theorem Adds.of_some {ll₁ ll₂ : LinkedList E} {bs : List Addr} {ys : List (Option E)}
    (h : Ringed ll₂ bs fs [] ys) (hsched : ll₂.sched = ll₁.sched)
    (halways : ll.sched = Schedule.always → (some p).isSome ∧ ll₁.sched = Schedule.always) :
    Adds ll ll₂ as xs ys 1 :=
  ⟨.inr ⟨rfl, bs, fs, h⟩, fun hs => ⟨rfl, hsched.trans (halways hs).2⟩⟩

theorem Ringed.llAddFirst (h : Ringed ll as fs [] xs) (e : Option E) :
    ∃ v ll', llAddFirst ll e = some (v, ll') ∧ Adds ll ll' as xs (e :: xs) v := by
  obtain ⟨p, ll₁, fs₁, hget, h₁, halways⟩ := getEntry_spec h
  cases p with
  | none => exact ⟨0, ll₁, by simp [LinkedList.llAddFirst, hget], .of_none h₁ halways⟩
  | some p =>
    obtain ⟨n, f, hn, hnext, rfl⟩ := h₁.first
    have hb : Between sentinel [] as sentinel (as.headD sentinel) := by
      constructor
      · exact ⟨[], rfl⟩
      · cases as with
        | nil => exact ⟨[], rfl⟩
        | cons a as => exact ⟨as ++ [sentinel], rfl⟩
    obtain ⟨ll₂, hplace, h₂, hsched⟩ := place_spec (l := []) h₁ hb e
    refine ⟨1, ll₂, ?_, .of_some h₂ hsched halways⟩
    simp only [LinkedList.llAddFirst, hget, hn, hnext, hplace, Option.bind_eq_bind, Option.bind_some]

theorem Ringed.llAddLast (h : Ringed ll as fs [] xs) (e : Option E) :
    ∃ v ll', llAddLast ll e = some (v, ll') ∧ Adds ll ll' as xs (xs ++ [e]) v := by
  obtain ⟨p, ll₁, fs₁, hget, h₁, halways⟩ := getEntry_spec h
  cases p with
  | none => exact ⟨0, ll₁, by simp [LinkedList.llAddLast, hget], .of_none h₁ halways⟩
  | some p =>
    obtain ⟨n, f, hn, hprev, rfl⟩ := h₁.last
    have hb : Between sentinel as [] (as.getLastD sentinel) sentinel := by
      constructor
      · rcases List.eq_nil_or_concat as with rfl | ⟨bs, a, rfl⟩
        · exact ⟨[], rfl⟩
        · exact ⟨sentinel :: bs, by simp⟩
      · exact ⟨[], rfl⟩
    have h₁' : Ringed ll₁ (as ++ []) fs₁ [p] xs := by rwa [List.append_nil]
    obtain ⟨ll₂, hplace, h₂, hsched⟩ := place_spec h₁' hb e
    rw [h.length_eq, List.insertIdx_length_self] at h₂
    refine ⟨1, ll₂, ?_, .of_some h₂ hsched halways⟩
    simp only [LinkedList.llAddLast, hget, hn, hprev, hplace, Option.bind_eq_bind, Option.bind_some]

/-- An element is refused only where there is no node for it. -/
theorem llAddLast_eq_zero_iff {ll' : LinkedList E} {e : Option E} {v : ℤ}
    (h : llAddLast ll e = some (v, ll')) : v = 0 ↔ ll.freel = none ∧ ll.sched 0 = false := by
  obtain ⟨⟨r, ll₁⟩, hget, h⟩ := Option.bind_eq_some_iff.mp h
  rw [← getEntry_eq_none_iff hget]
  cases r with
  | none =>
    obtain ⟨rfl, -⟩ := Prod.mk.inj (Option.some.inj h)
    exact iff_of_true rfl rfl
  | some p =>
    obtain ⟨s, -, h⟩ := Option.bind_eq_some_iff.mp h
    obtain ⟨q, -, h⟩ := Option.bind_eq_some_iff.mp h
    obtain ⟨nodes₁, -, h⟩ := Option.bind_eq_some_iff.mp h
    obtain ⟨nodes₂, -, heq⟩ := Option.bind_eq_some_iff.mp h
    obtain ⟨rfl, -⟩ := Prod.mk.inj (Option.some.inj heq)
    exact iff_of_false one_ne_zero (Option.some_ne_none p)

/-- A negative index inserts at the front, since the loop does not run. -/
theorem Ringed.llInsert (h : Ringed ll as fs [] xs) {i : ℤ} (hi : i ≤ xs.length) (e : Option E) :
    ∃ v ll', llInsert ll i e = some (v, ll') ∧ Adds ll ll' as xs (xs.insertIdx i.toNat e) v := by
  have hle : i ≤ ll.size := by rw [h.size_eq]; exact hi
  unfold LinkedList.llInsert
  rw [if_pos hle]
  obtain ⟨p, ll₁, fs₁, hget, h₁, halways⟩ := getEntry_spec h
  cases p with
  | none => exact ⟨0, ll₁, by simp [hget], .of_none h₁ halways⟩
  | some p =>
    have hlen := h.length_eq
    have htake : (as.take i.toNat).length = i.toNat := by
      rw [List.length_take]
      omega
    obtain ⟨b, d, hb⟩ := exists_between sentinel (as.take i.toNat) (as.drop i.toNat)
    rw [← List.take_append_drop i.toNat as] at h₁
    obtain ⟨ll₂, hplace, h₂, hsched⟩ := place_spec h₁ hb e
    have hadv := advance_sentinel h₁ hb
    obtain ⟨hnext, -⟩ := h₁.shape.ring.neighbours hb
    obtain ⟨n, hn, hnd⟩ := Heap.load_of_field hnext
    rw [htake] at hadv h₂
    refine ⟨1, ll₂, ?_, .of_some h₂ hsched halways⟩
    simp only [hget, hadv, hn, hnd, hplace, Option.bind_eq_bind, Option.bind_some]

theorem Ringed.llRemove (h : Ringed ll as fs [] xs) {i : ℤ} (h0 : 0 ≤ i) (hi : i < xs.length) :
    ∃ ll', llRemove ll i = some (1, xs[i.toNat]?, ll') ∧ Moves ll ll' (xs.eraseIdx i.toNat) := by
  obtain ⟨l, p, r, rfl, rfl⟩ := h.split h0 hi
  obtain ⟨ll', hremove, h', hsched⟩ := removeNode_spec h
  have hlt : (l.length : ℤ) < ll.size := by rw [h.size_eq]; exact hi
  refine ⟨ll', ?_, ⟨_, _, h'⟩, hsched⟩
  unfold LinkedList.llRemove
  rw [if_pos hlt, nodeAt_spec h]
  exact hremove

theorem Ringed.removeEnd (h : Ringed ll (l ++ p :: r) fs [] xs) :
    ∃ ll', removeEnd ll p = some (1, xs[l.length]?, ll') ∧ Moves ll ll' (xs.eraseIdx l.length) := by
  obtain ⟨ll', hremove, h', hsched⟩ := removeNode_spec h
  refine ⟨ll', ?_, ⟨_, _, h'⟩, hsched⟩
  unfold LinkedList.removeEnd
  rw [if_pos h.ne_sentinel]
  exact hremove

theorem removeEnd_sentinel (ll : LinkedList E) : removeEnd ll sentinel = some (0, none, ll) := by
  unfold removeEnd
  rw [if_neg (not_not.mpr rfl)]

theorem Ringed.concat (h : Ringed ll (l ++ [p]) fs held xs) :
    xs ≠ [] ∧ l.length = xs.length - 1 := by
  have hlen := h.length_eq
  rw [List.length_append, List.length_singleton] at hlen
  constructor
  · rintro rfl
    cases hlen
  · omega

theorem Ringed.llRemoveFirst (h : Ringed ll as fs [] xs) :
    ∃ ll', llRemoveFirst ll = some (if xs = [] then 0 else 1, xs.head?, ll') ∧ Moves ll ll' xs.tail := by
  obtain ⟨n, f, hn, hnext, rfl⟩ := h.first
  simp only [LinkedList.llRemoveFirst, hn, hnext, Option.bind_eq_bind, Option.bind_some]
  cases as with
  | nil =>
    obtain rfl := h.nil_iff.mp rfl
    exact ⟨ll, removeEnd_sentinel ll, ⟨[], fs, h⟩, rfl⟩
  | cons a as =>
    obtain ⟨ll', hremove, h'⟩ := h.removeEnd (l := [])
    cases xs with
    | nil => cases h.elements
    | cons x xs => exact ⟨ll', hremove, h'⟩

theorem Ringed.llRemoveLast (h : Ringed ll as fs [] xs) :
    ∃ ll', llRemoveLast ll = some (if xs = [] then 0 else 1, xs.getLast?, ll') ∧
      Moves ll ll' xs.dropLast := by
  obtain ⟨n, f, hn, hprev, rfl⟩ := h.last
  simp only [LinkedList.llRemoveLast, hn, hprev, Option.bind_eq_bind, Option.bind_some]
  rcases List.eq_nil_or_concat as with rfl | ⟨bs, a, rfl⟩
  · obtain rfl := h.nil_iff.mp rfl
    exact ⟨ll, removeEnd_sentinel ll, ⟨[], fs, h⟩, rfl⟩
  · rw [List.concat_eq_append] at h ⊢
    obtain ⟨ll', hremove, h'⟩ := h.removeEnd (r := [])
    obtain ⟨hne, hlen⟩ := h.concat
    rw [hlen, List.eraseIdx_length_sub_one] at h'
    refine ⟨ll', ?_, h'⟩
    rw [List.getLastD_concat, hremove, hlen, ← List.getLast?_eq_getElem?, if_neg hne]

theorem Ringed.llSet (h : Ringed ll as fs [] xs) {i : ℤ} (h0 : 0 ≤ i) (hi : i < xs.length)
    (e : Option E) :
    ∃ ll', llSet ll i e = some (1, xs[i.toNat]?, ll') ∧ Moves ll ll' (xs.set i.toNat e) := by
  obtain ⟨l, p, r, rfl, rfl⟩ := h.split h0 hi
  obtain ⟨n, hn, hx⟩ := h.element
  obtain ⟨n₁, hset, hw⟩ := setElement_spec ll.nodes (h.shape.isSome (a := p) (by simp)) e
  have hlt : (l.length : ℤ) < ll.size := by rw [h.size_eq]; exact hi
  refine ⟨{ ll with nodes := n₁ }, ?_,
    ⟨l ++ p :: r, fs, h.shape.setElement hw, h.size, ?_⟩, rfl⟩
  · unfold LinkedList.llSet
    rw [if_pos hlt, nodeAt_spec h]
    simp [hn, hset, hx]
  · have hnd := (List.nodup_cons.mp h.shape.ring.nodup).2
    have hpl : p ∉ l := fun hp => (List.nodup_append.mp hnd).2.2 p hp p List.mem_cons_self rfl
    have hpr : p ∉ r := (List.nodup_cons.mp (List.nodup_append.mp hnd).2.1).1
    rw [hw.element, ← h.elements, List.map_append, List.map_append, List.map_cons,
      map_update_of_notMem hpl, map_update_of_notMem hpr, Function.update_self]
    simp

theorem Ringed.llGet (h : Ringed ll as fs [] xs) {i : ℤ} (h0 : 0 ≤ i) (hi : i < xs.length) :
    llGet ll i = some (1, xs[i.toNat]?, ll) := by
  obtain ⟨l, p, r, rfl, rfl⟩ := h.split h0 hi
  obtain ⟨n, hn, hx⟩ := h.element
  have hlt : (l.length : ℤ) < ll.size := by rw [h.size_eq]; exact hi
  unfold LinkedList.llGet
  rw [if_pos hlt, nodeAt_spec h]
  simp [hn, hx]

theorem Ringed.getEnd (h : Ringed ll (l ++ p :: r) fs [] xs) :
    getEnd ll p = some (1, xs[l.length]?, ll) := by
  obtain ⟨n, hn, hx⟩ := h.element
  unfold LinkedList.getEnd
  rw [if_pos h.ne_sentinel]
  simp [hn, hx]

theorem getEnd_sentinel (ll : LinkedList E) : getEnd ll sentinel = some (0, none, ll) := by
  unfold getEnd
  rw [if_neg (not_not.mpr rfl)]

theorem Ringed.llGetFirst (h : Ringed ll as fs [] xs) :
    llGetFirst ll = some (if xs = [] then 0 else 1, xs.head?, ll) := by
  obtain ⟨n, f, hn, hnext, rfl⟩ := h.first
  simp only [LinkedList.llGetFirst, hn, hnext, Option.bind_eq_bind, Option.bind_some]
  cases as with
  | nil =>
    obtain rfl := h.nil_iff.mp rfl
    exact getEnd_sentinel ll
  | cons a as =>
    cases xs with
    | nil => cases h.elements
    | cons x xs => exact h.getEnd (l := [])

theorem Ringed.llGetLast (h : Ringed ll as fs [] xs) :
    llGetLast ll = some (if xs = [] then 0 else 1, xs.getLast?, ll) := by
  obtain ⟨n, f, hn, hprev, rfl⟩ := h.last
  simp only [LinkedList.llGetLast, hn, hprev, Option.bind_eq_bind, Option.bind_some]
  rcases List.eq_nil_or_concat as with rfl | ⟨bs, a, rfl⟩
  · obtain rfl := h.nil_iff.mp rfl
    exact getEnd_sentinel ll
  · rw [List.concat_eq_append] at h ⊢
    obtain ⟨hne, hlen⟩ := h.concat
    rw [List.getLastD_concat, h.getEnd, hlen, ← List.getLast?_eq_getElem?, if_neg hne]

theorem Ringed.purge (h : Ringed ll as fs [] xs) (uf : Bool) :
    ∃ nodes' freel' fs', purge ll uf =
        some (if uf then xs else [], { ll with nodes := nodes', freel := freel' }) ∧
      Purging nodes' freel' sentinel [] fs' ∧ nodes'.brk = ll.nodes.brk := by
  obtain ⟨n, f, hn, hnext, -⟩ := h.first
  have hf : nextOf ll.nodes sentinel = some f := by rw [nextOf, Heap.field_of_load hn, hnext]
  have hcells := h.shape.cells
  rw [List.append_nil] at hcells
  have h₀ : Purging ll.nodes ll.freel f as fs :=
    ⟨hf ▸ h.shape.ring.forward, h.shape.free, hcells, h.shape.alloc⟩
  have hfuel : as.length < ll.nodes.brk := by
    have hlen := hcells.length_eq
    rw [List.length_range, List.length_cons, List.length_append] at hlen
    omega
  obtain ⟨nodes₁, freel₁, fs₁, hpurge, h₁, hbrk⟩ := purgeFrom_spec uf h₀ hfuel
  refine ⟨nodes₁, freel₁, fs₁, ?_, h₁, hbrk⟩
  simp only [LinkedList.purge, hn, hnext, hpurge, h.elements, Option.bind_eq_bind, Option.bind_some]

theorem Ringed.llClear (h : Ringed ll as fs [] xs) (uf : Bool) :
    ∃ ll', llClear ll uf = some (if uf then xs else [], ll') ∧ Moves ll ll' [] := by
  obtain ⟨nodes₁, freel₁, fs₁, hpurge, h₁, -⟩ := h.purge uf
  have hs : (nodes₁.load sentinel).isSome := by
    apply h₁.alloc
    exact List.mem_range.mp (h₁.cells.mem_iff.mp List.mem_cons_self)
  obtain ⟨nodes₂, hset₂, hw₂⟩ := setNext_spec nodes₁ hs (some sentinel)
  obtain ⟨nodes₃, hset₃, hw₃⟩ :=
    setPrev_spec nodes₂ (by rw [hw₂.alloc]; exact hs) (some sentinel)
  have hfs : sentinel ∉ fs₁ :=
    (List.nodup_cons.mp (h₁.cells.nodup_iff.mpr List.nodup_range)).1
  refine ⟨{ ll with size := 0, nodes := nodes₃, freel := freel₁ }, ?_,
    ⟨[], fs₁, ⟨?_, ?_, ?_, ?_⟩, rfl, rfl⟩, rfl⟩
  · simp [LinkedList.llClear, hpurge, hset₂, hset₃]
  · apply ring_nil.mpr
    rw [hw₃.next, hw₂.next, hw₃.prev, Function.update_self, Function.update_self]
    exact ⟨rfl, rfl⟩
  · rw [hw₃.next, hw₂.next, seg_update hfs]
    exact h₁.free
  · rw [hw₃.brk, hw₂.brk, List.append_nil]
    exact h₁.cells
  · intro a ha
    rw [hw₃.alloc, hw₂.alloc]
    exact h₁.alloc a (hw₂.brk ▸ hw₃.brk ▸ ha)

theorem Ringed.genArray (h : Ringed ll as fs [] xs) :
    genArray ll = some (if xs ≠ [] ∧ ll.sched 0 then some xs else none,
      { ll with sched := if xs = [] then ll.sched else ll.sched.rest }) := by
  have hpos : 0 < ll.size ↔ xs ≠ [] := by
    rw [h.size_eq, ← List.length_pos_iff]
    omega
  unfold LinkedList.genArray
  by_cases hne : xs = []
  · rw [if_neg (fun h0 => hpos.mp h0 hne), if_neg (fun hc => hc.1 hne), if_pos hne]
  · rw [if_pos (hpos.mpr hne), if_neg hne]
    by_cases hs : ll.sched 0 = true
    · obtain ⟨n, f, hn, hnext, -⟩ := h.first
      have hf : nextOf ll.nodes sentinel = some f := by rw [nextOf, Heap.field_of_load hn, hnext]
      have htmp : elementsFrom ll.nodes ll.size.toNat f = some xs := by
        rw [h.size, Int.toNat_natCast, ← h.elements]
        exact elementsFrom_seg (hf ▸ h.shape.ring.forward)
      rw [if_pos hs, if_pos ⟨hne, hs⟩]
      simp only [hn, hnext, htmp, Option.bind_eq_bind, Option.bind_some]
    · rw [if_neg hs, if_neg (fun hc => hs hc.2)]

theorem llCreate_ringed {sched : Schedule} (hs : sched 0 = true) :
    ∃ ll : LinkedList E, llCreate sched = some ll ∧ Ringed ll [] [] [] [] ∧
      ll.sched = sched.rest := by
  refine ⟨_, if_pos hs, ⟨⟨?_, rfl, ?_, ?_⟩, rfl, rfl⟩, rfl⟩
  · apply ring_nil.mpr
    constructor <;> rfl
  · exact List.Perm.refl _
  · intro a ha
    have h0 : a = 0 := Nat.lt_one_iff.mp ha
    rw [h0]
    rfl

end CIS415.LinkedList
