import CIS415.LinkedListNodes

/-!
# Where the nodes are

Whatever the allocations return, every node a list has ever allocated is in its ring or on its free
list, as long as no index is negative. `ll_destroy` then frees each of them once. The guards of `ll_get`,
`ll_remove` and `ll_set` compare the index with the size only, so they stop an index that is too large
and let every negative one through.
-/

namespace CIS415.LinkedList

open Pointer

variable {E : Type} {ll ll' : LinkedList E} {as fs : List Addr} {xs : List (Option E)} {i : ℤ}
  {sched : Schedule} {ops : List (Op E)}

def NonNegative : Op E → Prop
  | .remove i => 0 ≤ i
  | .set i _ => 0 ≤ i
  | .get i => 0 ≤ i
  | _ => True

def Whole (ll : LinkedList E) : Prop :=
  ∃ as fs xs, Ringed ll as fs [] xs

theorem Ringed.whole (h : Ringed ll as fs [] xs) : Whole ll :=
  ⟨as, fs, xs, h⟩

theorem Moves.whole (h : Moves ll ll' xs) : Whole ll' := by
  obtain ⟨⟨as, fs, hring⟩, -⟩ := h
  exact hring.whole

theorem Adds.whole {ys : List (Option E)} {v : ℤ} (h : Adds ll ll' as xs ys v) : Whole ll' := by
  rcases h.ringed with ⟨-, fs, hring⟩ | ⟨-, bs, fs, hring⟩
  · exact hring.whole
  · exact hring.whole

theorem llInsert_of_size_lt (hi : ll.size < i) (e : Option E) : llInsert ll i e = some (0, ll) := by
  unfold llInsert
  rw [if_neg (not_le.mpr hi)]

theorem llGet_of_size_le (hi : ll.size ≤ i) : llGet ll i = some (0, none, ll) := by
  unfold llGet
  rw [if_neg (not_lt.mpr hi)]

theorem llRemove_of_size_le (hi : ll.size ≤ i) : llRemove ll i = some (0, none, ll) := by
  unfold llRemove
  rw [if_neg (not_lt.mpr hi)]

theorem llSet_of_size_le (hi : ll.size ≤ i) (e : Option E) : llSet ll i e = some (0, none, ll) := by
  unfold llSet
  rw [if_neg (not_lt.mpr hi)]

theorem Ringed.step (h : Ringed ll as fs [] xs) (o : Op E) (ho : NonNegative o) :
    ∃ ret ll', step ll o = some (ret, ll') ∧ Whole ll' := by
  cases o with
  | add e =>
    obtain ⟨v, ll', hadd, hadds⟩ := h.llAddLast e
    exact ⟨_, ll', by rw [LinkedList.step, llAdd, hadd]; rfl, hadds.whole⟩
  | addFirst e =>
    obtain ⟨v, ll', hadd, hadds⟩ := h.llAddFirst e
    exact ⟨_, ll', by rw [LinkedList.step, hadd]; rfl, hadds.whole⟩
  | addLast e =>
    obtain ⟨v, ll', hadd, hadds⟩ := h.llAddLast e
    exact ⟨_, ll', by rw [LinkedList.step, hadd]; rfl, hadds.whole⟩
  | insert i e =>
    by_cases hi : i ≤ xs.length
    · obtain ⟨v, ll', hinsert, hadds⟩ := h.llInsert hi e
      exact ⟨_, ll', by rw [LinkedList.step, hinsert]; rfl, hadds.whole⟩
    · have hlt : ll.size < i := by rw [h.size_eq]; exact not_le.mp hi
      exact ⟨_, ll, by rw [LinkedList.step, llInsert_of_size_lt hlt]; rfl, h.whole⟩
  | remove i =>
    by_cases hi : i < xs.length
    · obtain ⟨ll', hremove, hmoves⟩ := h.llRemove ho hi
      exact ⟨_, ll', by rw [LinkedList.step, hremove]; rfl, hmoves.whole⟩
    · have hle : ll.size ≤ i := by rw [h.size_eq]; exact not_lt.mp hi
      exact ⟨_, ll, by rw [LinkedList.step, llRemove_of_size_le hle]; rfl, h.whole⟩
  | removeFirst =>
    obtain ⟨ll', hremove, hmoves⟩ := h.llRemoveFirst
    exact ⟨_, ll', by rw [LinkedList.step, hremove]; rfl, hmoves.whole⟩
  | removeLast =>
    obtain ⟨ll', hremove, hmoves⟩ := h.llRemoveLast
    exact ⟨_, ll', by rw [LinkedList.step, hremove]; rfl, hmoves.whole⟩
  | set i e =>
    by_cases hi : i < xs.length
    · obtain ⟨ll', hset, hmoves⟩ := h.llSet ho hi e
      exact ⟨_, ll', by rw [LinkedList.step, hset]; rfl, hmoves.whole⟩
    · have hle : ll.size ≤ i := by rw [h.size_eq]; exact not_lt.mp hi
      exact ⟨_, ll, by rw [LinkedList.step, llSet_of_size_le hle]; rfl, h.whole⟩
  | get i =>
    by_cases hi : i < xs.length
    · exact ⟨_, ll, by rw [LinkedList.step, h.llGet ho hi]; rfl, h.whole⟩
    · have hle : ll.size ≤ i := by rw [h.size_eq]; exact not_lt.mp hi
      exact ⟨_, ll, by rw [LinkedList.step, llGet_of_size_le hle]; rfl, h.whole⟩
  | getFirst => exact ⟨_, ll, by rw [LinkedList.step, h.llGetFirst]; rfl, h.whole⟩
  | getLast => exact ⟨_, ll, by rw [LinkedList.step, h.llGetLast]; rfl, h.whole⟩
  | clear uf =>
    obtain ⟨ll', hclear, hmoves⟩ := h.llClear uf
    exact ⟨_, ll', by rw [LinkedList.step, hclear]; rfl, hmoves.whole⟩
  | size => exact ⟨_, ll, rfl, h.whole⟩
  | toArray =>
    have hsched : ∀ sched, Whole { ll with sched := sched } :=
      fun sched => ⟨as, fs, xs, h.shape, h.size, h.elements⟩
    have hgen := h.genArray
    by_cases ha : xs ≠ [] ∧ ll.sched 0
    · rw [if_pos ha] at hgen
      exact ⟨_, _, by rw [LinkedList.step, llToArray, hgen]; rfl, hsched _⟩
    · rw [if_neg ha] at hgen
      exact ⟨_, _, by rw [LinkedList.step, llToArray, hgen]; rfl, hsched _⟩

theorem run_whole (hs : sched 0 = true) (hops : ∀ o ∈ ops, NonNegative o) :
    ∃ rs ll, run sched ops = some (rs, ll) ∧ Whole ll := by
  obtain ⟨ll₀, hcreate, h₀, -⟩ := llCreate_ringed (E := E) hs
  have hstep : ∀ (ll : LinkedList E) o, Whole ll → NonNegative o →
      ∃ ret ll', step ll o = some (ret, ll') ∧ Whole ll' := by
    rintro ll o ⟨as, fs, xs, h⟩ ho
    exact h.step o ho
  obtain ⟨rs, ll, hrun, hwhole⟩ := Machine.run_invariant hstep h₀.whole hops
  exact ⟨rs, ll, by rw [run, hcreate]; exact hrun, hwhole⟩

/-- What linkedlist.h says of a call with an index: it reports 1 for an index in range, and for every
other it reports 0, hands out no element and leaves the list as it was. -/
def Checked (ll : LinkedList E) (i : ℤ) (r : Option (Outcome E)) : Prop :=
  ∃ v x ll', r = some (v, x, ll') ∧
    if 0 ≤ i ∧ i < ll.size then v = 1 else v = 0 ∧ x = none ∧ ll' = ll

theorem checked_of_range {v : ℤ} {x : Option (Option E)} (h0 : 0 ≤ i) (hi : i < ll.size)
    (hv : v = 1) : Checked ll i (some (v, x, ll')) :=
  ⟨v, x, ll', rfl, by rwa [if_pos ⟨h0, hi⟩]⟩

theorem checked_of_size_le (hi : ll.size ≤ i) : Checked ll i (some (0, none, ll)) :=
  ⟨0, none, ll, rfl, by rw [if_neg (fun hc => not_lt.mpr hi hc.2)]; exact ⟨rfl, rfl, rfl⟩⟩

/-- Behind the guard a call has no other status than 1. -/
theorem not_checked_of_neg {r : Option (Outcome E)} (hneg : i < 0)
    (hr : ∀ v x ll', r = some (v, x, ll') → v = 1) : ¬ Checked ll i r := by
  rintro ⟨v, x, ll', rfl, hv⟩
  rw [if_neg (fun hc => not_le.mpr hneg hc.1)] at hv
  exact absurd (hv.1.symm.trans (hr v x ll' rfl)) (by decide)

theorem removeNode_status {p : Addr} {v : ℤ} {x : Option (Option E)}
    (h : removeNode ll p = some (v, x, ll')) : v = 1 := by
  simp only [removeNode, Option.bind_eq_bind, Option.bind_eq_some_iff, Option.some.injEq,
    Prod.mk.injEq] at h
  obtain ⟨n, -, nodes, -, ll₁, -, hv, -⟩ := h
  exact hv.symm

theorem llGet_status {v : ℤ} {x : Option (Option E)} (hi : i < ll.size)
    (h : llGet ll i = some (v, x, ll')) : v = 1 := by
  unfold llGet at h
  rw [if_pos hi] at h
  simp only [Option.bind_eq_bind, Option.bind_eq_some_iff, Option.some.injEq, Prod.mk.injEq] at h
  obtain ⟨p, -, n, -, hv, -⟩ := h
  exact hv.symm

theorem llRemove_status {v : ℤ} {x : Option (Option E)} (hi : i < ll.size)
    (h : llRemove ll i = some (v, x, ll')) : v = 1 := by
  unfold llRemove at h
  rw [if_pos hi] at h
  simp only [Option.bind_eq_bind, Option.bind_eq_some_iff] at h
  obtain ⟨p, -, hremove⟩ := h
  exact removeNode_status hremove

theorem llSet_status {v : ℤ} {x : Option (Option E)} {e : Option E} (hi : i < ll.size)
    (h : llSet ll i e = some (v, x, ll')) : v = 1 := by
  unfold llSet at h
  rw [if_pos hi] at h
  simp only [Option.bind_eq_bind, Option.bind_eq_some_iff, Option.some.injEq, Prod.mk.injEq] at h
  obtain ⟨p, -, n, -, nodes, -, hv, -⟩ := h
  exact hv.symm

theorem checked_llGet (h : Ringed ll as fs [] xs) : Checked ll i (llGet ll i) ↔ 0 ≤ i := by
  constructor
  · intro hc
    by_contra hneg
    have hlt : i < ll.size := by rw [h.size_eq]; omega
    exact not_checked_of_neg (not_le.mp hneg) (fun v x ll' => llGet_status hlt) hc
  · intro h0
    by_cases hi : i < ll.size
    · rw [h.llGet h0 (h.size_eq ▸ hi)]
      exact checked_of_range h0 hi rfl
    · rw [llGet_of_size_le (not_lt.mp hi)]
      exact checked_of_size_le (not_lt.mp hi)

theorem checked_llRemove (h : Ringed ll as fs [] xs) :
    Checked ll i (llRemove ll i) ↔ 0 ≤ i := by
  constructor
  · intro hc
    by_contra hneg
    have hlt : i < ll.size := by rw [h.size_eq]; omega
    exact not_checked_of_neg (not_le.mp hneg) (fun v x ll' => llRemove_status hlt) hc
  · intro h0
    by_cases hi : i < ll.size
    · obtain ⟨ll', hremove, -⟩ := h.llRemove h0 (h.size_eq ▸ hi)
      rw [hremove]
      exact checked_of_range h0 hi rfl
    · rw [llRemove_of_size_le (not_lt.mp hi)]
      exact checked_of_size_le (not_lt.mp hi)

theorem checked_llSet (h : Ringed ll as fs [] xs) (e : Option E) :
    Checked ll i (llSet ll i e) ↔ 0 ≤ i := by
  constructor
  · intro hc
    by_contra hneg
    have hlt : i < ll.size := by rw [h.size_eq]; omega
    exact not_checked_of_neg (not_le.mp hneg) (fun v x ll' => llSet_status hlt) hc
  · intro h0
    by_cases hi : i < ll.size
    · obtain ⟨ll', hset, -⟩ := h.llSet h0 (h.size_eq ▸ hi) e
      rw [hset]
      exact checked_of_range h0 hi rfl
    · rw [llSet_of_size_le (not_lt.mp hi)]
      exact checked_of_size_le (not_lt.mp hi)

/-- In every state that calls without a negative index reach, an index is checked exactly when it is not
negative. -/
theorem index_checked_iff (hs : sched 0 = true) (hops : ∀ o ∈ ops, NonNegative o) :
    ∃ rs ll, run sched ops = some (rs, ll) ∧ ∀ (i : ℤ) (e : Option E),
      (Checked ll i (llGet ll i) ↔ 0 ≤ i) ∧ (Checked ll i (llRemove ll i) ↔ 0 ≤ i) ∧
        (Checked ll i (llSet ll i e) ↔ 0 ≤ i) := by
  obtain ⟨rs, ll, hrun, as, fs, xs, h⟩ := run_whole hs hops
  exact ⟨rs, ll, hrun, fun i e => ⟨checked_llGet h, checked_llRemove h, checked_llSet h e⟩⟩

theorem index_checked_iff_one :
    ∃ rs ll, run Schedule.always [.add (some 1), .get 0, .set 0 (some 2)] = some (rs, ll) ∧
      ∀ (i : ℤ) (e : Option ℕ), (Checked ll i (llGet ll i) ↔ 0 ≤ i) ∧
        (Checked ll i (llRemove ll i) ↔ 0 ≤ i) ∧ (Checked ll i (llSet ll i e) ↔ 0 ≤ i) :=
  index_checked_iff rfl (by simp [NonNegative])

/-- `ll_remove` with index -1 on an empty list puts the sentinel on the free list and reports 1. -/
theorem llRemove_not_checked :
    ∃ ll : LinkedList ℕ, llCreate Schedule.always = some ll ∧
      (llRemove ll (-1)).map (fun r => (r.1, r.2.2.size, r.2.2.freel)) = some (1, -1, some sentinel) ∧
      ¬ Checked ll (-1) (llRemove ll (-1)) := by
  obtain ⟨ll, hcreate, h, -⟩ := llCreate_ringed (E := ℕ) (show Schedule.always 0 = true from rfl)
  refine ⟨ll, hcreate, ?_, fun hc => absurd ((checked_llRemove h).mp hc) (by decide)⟩
  obtain rfl := Option.some.inj hcreate
  rfl

theorem freeFrom_spec {nodes : Heap (LLNode E)} {q : Option Addr} {fuel : ℕ}
    (h : Seg (nextOf nodes) q fs none) (hn : fs.Nodup) (halloc : ∀ a ∈ fs, (nodes.load a).isSome)
    (hfuel : fs.length ≤ fuel) :
    ∃ nodes', freeFrom fuel q nodes = some (fs, nodes') ∧ (∀ a ∈ fs, nodes'.load a = none) ∧
      ∀ a, a ∉ fs → nodes'.load a = nodes.load a := by
  induction fs generalizing q nodes fuel with
  | nil =>
    obtain rfl : q = none := h
    refine ⟨nodes, ?_, fun a ha => absurd ha (List.not_mem_nil), fun a _ => rfl⟩
    unfold freeFrom
    rfl
  | cons f fs ih =>
    obtain ⟨fuel, rfl⟩ := Nat.exists_eq_succ_of_ne_zero (Nat.ne_zero_of_lt hfuel)
    obtain ⟨rfl, hseg⟩ := h
    obtain ⟨hf, hn⟩ := List.nodup_cons.mp hn
    obtain ⟨n, hload⟩ := Option.isSome_iff_exists.mp (halloc f List.mem_cons_self)
    obtain ⟨nodes₁, hfree, hload₁, -⟩ := Heap.free_spec hload
    have hother : ∀ a, a ≠ f → nodes₁.load a = nodes.load a := by
      intro a ha
      rw [hload₁, Function.update_of_ne ha]
    have hne : ∀ a ∈ fs, a ≠ f := by
      rintro a ha rfl
      exact hf ha
    have hnext : nextOf nodes f = n.next := Heap.field_of_load hload _
    have hseg₁ : Seg (nextOf nodes₁) n.next fs none := by
      rw [← hnext]
      refine (seg_congr ?_).mpr hseg
      intro a ha
      rw [nextOf, Heap.field, hother a (hne a ha)]
      rfl
    obtain ⟨nodes', hrest, hnone, hsame⟩ := ih hseg₁ hn (fun a ha => by
      rw [hother a (hne a ha)]
      exact halloc a (List.mem_cons_of_mem _ ha)) (Nat.le_of_succ_le_succ hfuel)
    refine ⟨nodes', by simp [freeFrom, hload, hfree, hrest], ?_, ?_⟩
    · intro a ha
      rcases List.mem_cons.mp ha with rfl | ha
      · rw [hsame a hf, hload₁, Function.update_self]
      · exact hnone a ha
    · intro a ha
      obtain ⟨haf, hafs⟩ := not_or.mp fun hc => ha (List.mem_cons.mpr hc)
      rw [hsame a hafs, hother a haf]

/-- The elements go to the user function in ring order, and every address handed out is freed once. -/
theorem Ringed.llDestroy (h : Ringed ll as fs [] xs) (uf : Bool) :
    ∃ freed nodes, llDestroy ll uf = some (if uf then xs else [], freed, nodes) ∧
      freed.Perm (List.range ll.nodes.brk) ∧ ∀ a, nodes.load a = none := by
  obtain ⟨nodes₁, freel₁, gs, hpurge, h₁, hbrk⟩ := h.purge uf
  have hn := List.nodup_cons.mp (h₁.cells.nodup_iff.mpr List.nodup_range)
  have hlt : ∀ a ∈ sentinel :: gs, a < nodes₁.brk :=
    fun a ha => List.mem_range.mp (h₁.cells.mem_iff.mp ha)
  have hlen : gs.length ≤ nodes₁.brk := by
    have hlen := h₁.cells.length_eq
    rw [List.length_range, List.length_cons, List.nil_append] at hlen
    omega
  obtain ⟨nodes₂, hloop, hnone, hsame⟩ := freeFrom_spec h₁.free hn.2
    (fun a ha => h₁.alloc a (hlt a (List.mem_cons_of_mem _ ha))) hlen
  have hsent : (nodes₂.load sentinel).isSome := by
    rw [hsame sentinel hn.1]
    exact h₁.alloc sentinel (hlt sentinel List.mem_cons_self)
  obtain ⟨s, hs⟩ := Option.isSome_iff_exists.mp hsent
  obtain ⟨nodes₃, hfree, hload, -⟩ := Heap.free_spec hs
  refine ⟨gs ++ [sentinel], nodes₃, ?_, ?_, ?_⟩
  · simp [LinkedList.llDestroy, hpurge, hloop, hfree]
  · rw [← hbrk]
    exact (List.perm_append_singleton sentinel gs).trans h₁.cells
  · intro a
    by_cases ha : a = sentinel
    · rw [ha, hload, Function.update_self]
    · rw [hload, Function.update_of_ne ha]
      by_cases hg : a ∈ gs
      · exact hnone a hg
      · rw [hsame a hg]
        apply nodes₁.fresh
        by_contra hc
        have hmem := h₁.cells.mem_iff.mpr (List.mem_range.mpr (not_le.mp hc))
        exact (List.mem_cons.mp hmem).elim ha hg

def Adding : Op E → Prop
  | .add _ => True
  | .addFirst _ => True
  | .addLast _ => True
  | .insert _ _ => True
  | _ => False

/-- An add that reports 0 leaves the ring, its elements and the size as they were. -/
theorem Ringed.adding (h : Ringed ll as fs [] xs) (o : Op E) (ho : Adding o) :
    ∃ ret ll', LinkedList.step ll o = some (ret, ll') ∧
      (ret.value = 0 → ∃ gs, Ringed ll' as gs [] xs) := by
  have hzero : ∀ {v : ℤ} {ll' : LinkedList E} {ys : List (Option E)}, Adds ll ll' as xs ys v → v = 0 →
      ∃ gs, Ringed ll' as gs [] xs := by
    rintro v ll' ys ⟨⟨-, hring⟩ | ⟨hone, -⟩, -⟩ hv
    · exact hring
    · exact absurd (hone.symm.trans hv) (by decide)
  cases o with
  | add e =>
    obtain ⟨v, ll', hadd, hadds⟩ := h.llAddLast e
    exact ⟨_, ll', by rw [LinkedList.step, llAdd, hadd]; rfl, hzero hadds⟩
  | addFirst e =>
    obtain ⟨v, ll', hadd, hadds⟩ := h.llAddFirst e
    exact ⟨_, ll', by rw [LinkedList.step, hadd]; rfl, hzero hadds⟩
  | addLast e =>
    obtain ⟨v, ll', hadd, hadds⟩ := h.llAddLast e
    exact ⟨_, ll', by rw [LinkedList.step, hadd]; rfl, hzero hadds⟩
  | insert i e =>
    by_cases hi : i ≤ xs.length
    · obtain ⟨v, ll', hinsert, hadds⟩ := h.llInsert hi e
      exact ⟨_, ll', by rw [LinkedList.step, hinsert]; rfl, hzero hadds⟩
    · have hlt : ll.size < i := by rw [h.size_eq]; exact not_le.mp hi
      exact ⟨_, ll, by rw [LinkedList.step, llInsert_of_size_lt hlt]; rfl, fun _ => ⟨fs, h⟩⟩
  | _ => exact absurd ho id

/-- `as` is the ring and `fs` the free list of the state reached; the addresses below `brk` are those of
the sentinel and of the nodes that were ever allocated. -/
theorem nodes_conserved (hs : sched 0 = true) (hops : ∀ o ∈ ops, NonNegative o) :
    ∃ rs ll as fs, run sched ops = some (rs, ll) ∧
      Ring (nextOf ll.nodes) (prevOf ll.nodes) sentinel as ∧
      Seg (nextOf ll.nodes) ll.freel fs none ∧
      (sentinel :: (as ++ fs)).Perm (List.range ll.nodes.brk) ∧ ll.size = as.length ∧
      (∀ o, Adding o → ∃ ret ll', step ll o = some (ret, ll') ∧
        (ret.value = 0 → Ring (nextOf ll'.nodes) (prevOf ll'.nodes) sentinel as ∧
          as.map (elementOf ll'.nodes) = as.map (elementOf ll.nodes) ∧ ll'.size = ll.size)) ∧
      ∀ uf, ∃ freed nodes,
        llDestroy ll uf = some (if uf then as.map (elementOf ll.nodes) else [], freed, nodes) ∧
        freed.Perm (List.range ll.nodes.brk) ∧ ∀ a, nodes.load a = none := by
  obtain ⟨rs, ll, hrun, as, fs, xs, h⟩ := run_whole hs hops
  have hcells := h.shape.cells
  rw [List.append_nil] at hcells
  refine ⟨rs, ll, as, fs, hrun, h.shape.ring, h.shape.free, hcells, h.size, ?_, ?_⟩
  · intro o ho
    obtain ⟨ret, ll', hstep, hzero⟩ := h.adding o ho
    refine ⟨ret, ll', hstep, fun hv => ?_⟩
    obtain ⟨gs, h'⟩ := hzero hv
    exact ⟨h'.shape.ring, h'.elements.trans h.elements.symm, h'.size.trans h.size.symm⟩
  · intro uf
    rw [h.elements]
    exact h.llDestroy uf

theorem nodes_conserved_two :
    ∃ rs ll as fs, run (fun n => n < 2) [.add (some 1), .addFirst (some 2), .get 0] = some (rs, ll) ∧
      Ring (nextOf ll.nodes) (prevOf ll.nodes) sentinel as ∧
      Seg (nextOf ll.nodes) ll.freel fs none ∧
      (sentinel :: (as ++ fs)).Perm (List.range ll.nodes.brk) ∧ ll.size = as.length ∧
      (∀ o, Adding o → ∃ ret ll', step ll o = some (ret, ll') ∧
        (ret.value = 0 → Ring (nextOf ll'.nodes) (prevOf ll'.nodes) sentinel as ∧
          as.map (elementOf ll'.nodes) = as.map (elementOf ll.nodes) ∧ ll'.size = ll.size)) ∧
      ∀ uf, ∃ freed nodes,
        llDestroy ll uf = some (if uf then as.map (elementOf ll.nodes) else [], freed, nodes) ∧
        freed.Perm (List.range ll.nodes.brk) ∧ ∀ a, nodes.load a = none :=
  nodes_conserved (E := ℕ) rfl (by simp [NonNegative])

end CIS415.LinkedList
