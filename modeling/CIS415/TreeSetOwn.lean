import CIS415.TreeSetNavigate

/-!
# Who owns the elements of a tree set

`ts_add` takes an element over; the user function given to `ts_remove`, `ts_clear` and `ts_destroy`
gets it back. The books balance after a call when what was stored or accepted before it is, up to
order, what is stored after it together with what the user function was called on. `remove` calls
the user function on the node it unlinks; for a match with two children that is the node of the
heir, whose element has just been copied into the matched node and stays in the set.
-/

namespace CIS415.TreeSet

open OrderedList TNode

variable {E : Type}

/-- The calls a removal makes, from the node that `find` returns. -/
def callsAt : TNode E → List E
  | null => []
  | node l y _ r => if l.isNull ∨ r.isNull then [y] else (findMax l).element.toList

theorem find_findMax {c : Comparison E} {t l r : TNode E} {y : E} {b : ℤ}
    (hs : c.Increasing t.inorder) (hmax : findMax t = node l y b r) :
    find c.cmp y t = node l y b r := by
  induction t with
  | null => cases hmax
  | node tl x p tr _ ihr =>
    obtain ⟨_, hr, _, hxr⟩ := c.increasing_append_cons.mp hs
    cases hnull : tr.isNull with
    | true =>
      rw [findMax, if_pos hnull] at hmax
      obtain ⟨rfl, rfl, rfl, rfl⟩ := TNode.node.inj hmax
      simp [find]
    | false =>
      rw [findMax, hnull, if_neg Bool.false_ne_true] at hmax
      obtain ⟨xs, l', y', b', hlast, hin⟩ := findMax_last hnull
      obtain ⟨rfl, rfl, rfl, rfl⟩ := TNode.node.inj (hmax.symm.trans hlast)
      have hlt : c.cmp x y < 0 := hxr y (by rw [hin]; simp)
      have hgt : 0 < c.cmp y x := (c.swap x y).mp hlt
      rw [find, if_neg (by omega), if_pos hgt]
      exact ihr hr hmax

theorem find_of_lt {c : Comparison E} {e x : E} {l r : TNode E} {b : ℤ} (h : c.cmp e x < 0) :
    find c.cmp e (node l x b r) = find c.cmp e l := by
  rw [find, if_pos h]

theorem find_of_gt {c : Comparison E} {e x : E} {l r : TNode E} {b : ℤ} (h : c.cmp x e < 0) :
    find c.cmp e (node l x b r) = find c.cmp e r := by
  have hgt : 0 < c.cmp e x := (c.swap x e).mp h
  rw [find, if_neg (by omega), if_pos hgt]

theorem find_of_eq {c : Comparison E} {e x : E} {l r : TNode E} {b : ℤ} (h : c.cmp e x = 0) :
    find c.cmp e (node l x b r) = node l x b r := by
  rw [find, if_neg (by omega), if_neg (by omega)]

theorem remove_calls {c : Comparison E} {t : TNode E} (hs : c.Increasing t.inorder) {e : E}
    {done : Bool} {t' : TNode E} {done' : Bool} {calls : List E}
    (h : remove c.cmp true t e done = some (t', done', calls)) :
    calls = callsAt (find c.cmp e t) := by
  induction t generalizing e t' done' with
  | null =>
    rw [remove, Option.some.injEq] at h
    rw [← (Prod.mk.inj (Prod.mk.inj h).2).2]
    rfl
  | node l x b r ihl ihr =>
    obtain ⟨hl, hr, _, _⟩ := c.increasing_append_cons.mp hs
    by_cases hx : c.cmp e x = 0
    · rw [find_of_eq hx, callsAt]
      by_cases hnull : l.isNull ∨ r.isNull
      · simp only [remove, hx, hnull, and_self, if_true, Option.some.injEq, Prod.mk.injEq] at h
        rw [if_pos hnull, ← h.2.2]
      · -- the removal goes on in the left subtree, with the heir's element
        have hlnull : l.isNull = false := by simpa using fun h => hnull (Or.inl h)
        obtain ⟨xs, l', y, q, hmax, hin⟩ := findMax_last hlnull
        have hself : ¬ c.cmp y y < 0 := by rw [c.cmp_self]; omega
        simp only [remove, hx, hnull, and_false, if_false, if_true, hmax, TNode.element,
          Option.bind_eq_bind, Option.bind_some, Option.pure_def, hself,
          Option.bind_eq_some_iff, Option.some.injEq, Prod.mk.injEq] at h
        obtain ⟨⟨sub, done₁, calls₁⟩, hsub, _, _, _, _, rfl⟩ := h
        rw [if_neg hnull, ihl hl hsub, find_findMax hl hmax, hmax]
        exact if_pos (Or.inr rfl)
    · by_cases hlt : c.cmp x e < 0
      · simp only [remove, hx, false_and, if_false, Option.bind_eq_bind, Option.bind_some,
          Option.pure_def, hlt, if_true, Option.bind_eq_some_iff, Option.some.injEq,
          Prod.mk.injEq] at h
        obtain ⟨⟨sub, done₁, calls₁⟩, hsub, _, _, _, _, rfl⟩ := h
        rw [ihr hr hsub, find_of_gt hlt]
      · simp only [remove, hx, false_and, if_false, Option.bind_eq_bind, Option.bind_some,
          Option.pure_def, hlt, Option.bind_eq_some_iff, Option.some.injEq, Prod.mk.injEq] at h
        obtain ⟨⟨sub, done₁, calls₁⟩, hsub, _, _, _, _, rfl⟩ := h
        have hgt : ¬ c.cmp e x > 0 := fun h => hlt ((c.swap x e).mpr h)
        rw [ihl hl hsub, find_of_lt (by omega)]

/-- What `find` returns for a stored element: its node, with the search tree under it. -/
theorem find_of_mem {c : Comparison E} {t : TNode E} (hs : c.Increasing t.inorder) {e : E}
    (hm : c.Mem e t.inorder) :
    ∃ l y b r, find c.cmp e t = node l y b r ∧ y ∈ t.inorder ∧ c.cmp e y = 0 ∧
      c.Increasing (node l y b r).inorder := by
  induction t with
  | null => exact absurd hm (c.not_mem_nil e)
  | node l x b r ihl ihr =>
    obtain ⟨hl, hr, _, _⟩ := c.increasing_append_cons.mp hs
    by_cases hx : c.cmp e x = 0
    · exact ⟨l, x, b, r, find_of_eq hx, by simp, hx, hs⟩
    · by_cases hlt : c.cmp e x < 0
      · obtain ⟨l', y, b', r', hfind, hy, hey, hs'⟩ :=
          ihl hl ((c.mem_append_cons_of_lt hs hlt).mp hm)
        exact ⟨l', y, b', r', by rw [find_of_lt hlt, hfind], by simp [hy], hey, hs'⟩
      · have hgt := c.gt_of_not_lt hlt hx
        obtain ⟨l', y, b', r', hfind, hy, hey, hs'⟩ :=
          ihr hr ((c.mem_append_cons_of_gt hs hgt).mp hm)
        exact ⟨l', y, b', r', by rw [find_of_gt hgt, hfind], by simp [hy], hey, hs'⟩

theorem postpurge_perm (t : TNode E) : (postpurge true t).Perm t.inorder := by
  induction t with
  | null => exact List.Perm.refl _
  | node l x b r ihl ihr =>
    rw [postpurge, inorder_node, if_pos rfl, List.append_assoc]
    exact ihl.append ((ihr.append_right [x]).trans (List.perm_append_singleton x r.inorder))

def accepted : Op E → Ret E → List E
  | .add e, ret => if ret.value = 1 then [e] else []
  | _, _ => []

@[simp] theorem accepted_clear (uf : Bool) (ret : Ret E) : accepted (.clear uf) ret = [] := rfl

/-- What an owner expects of a call: the books balance, the user function has not been called on
an element that is still stored, and a removal has called it on the stored equal element. -/
structure Settled (c : Comparison E) (ts : TreeSet E) (op : Op E) (ret : Ret E)
    (ts' : TreeSet E) : Prop where
  conserved : (ts.root.inorder ++ accepted op ret).Perm (ts'.root.inorder ++ ret.calls)
  gone : ∀ y ∈ ret.calls, y ∉ ts'.root.inorder
  matched : ∀ e uf, op = .remove e uf → ∀ y ∈ ts.root.inorder, c.cmp e y = 0 → ret.calls = [y]

/-- The calls of an owner: `ts_add`, and `ts_remove` and `ts_clear` with a user function. -/
def Op.Owning : Op E → Prop
  | .add _ => True
  | .remove _ uf => uf = true
  | .clear uf => uf = true
  | _ => False

def HasFreeLink : TNode E → Prop
  | null => True
  | node l _ _ r => l.isNull ∨ r.isNull

theorem tsRemove_calls {c : Comparison E} {ts ts' : TreeSet E} {l : List E}
    (h : Represents c ts l) {e : E} {v : ℤ} {calls : List E}
    (hrem : tsRemove ts e true = some (v, calls, ts')) :
    calls = callsAt (find c.cmp e ts.root) := by
  rw [tsRemove, h.cmp] at hrem
  cases hnull : (find c.cmp e ts.root).isNull with
  | true =>
    rw [hnull, if_pos rfl, Option.some.injEq] at hrem
    rw [height_of_isNull hnull, ← (Prod.mk.inj (Prod.mk.inj hrem).2).1]
    rfl
  | false =>
    rw [hnull, if_neg Bool.false_ne_true] at hrem
    simp only [Option.bind_eq_bind, Option.bind_eq_some_iff, Option.some.injEq,
      Prod.mk.injEq] at hrem
    obtain ⟨⟨t', done, calls'⟩, hr, _, rfl, _⟩ := hrem
    exact remove_calls h.avl.increasing hr

/-- Elements that were stored or have just been accepted are distinct, so what the books say went
out is no longer stored. -/
theorem gone_of_conserved {l l' acc calls : List E} (hnodup : (l ++ acc).Nodup)
    (hcons : (l ++ acc).Perm (l' ++ calls)) : ∀ y ∈ calls, y ∉ l' := by
  have hdisj := (List.nodup_append.mp (hcons.nodup_iff.mp hnodup)).2.2
  exact fun y hy hy' => hdisj y hy' y hy rfl

theorem add_settled {c : Comparison E} {ts : TreeSet E} {l : List E} (h : Represents c ts l)
    (e : E) : ∃ ret ts', step ts (.add e) = some (ret, ts') ∧ Settled c ts (.add e) ret ts' := by
  obtain ⟨ts', hadd, hrep, _⟩ := tsAdd_spec h e
  refine ⟨_, ts', by simp only [step, hadd]; rfl, ?_, fun y hy => absurd hy List.not_mem_nil,
    fun e' uf heq => by cases heq⟩
  rw [h.inorder, hrep.inorder, List.append_nil, accepted]
  by_cases hm : c.Mem e l
  · rw [if_pos hm, if_pos hm, if_neg (by simp), List.append_nil]
  · rw [if_neg hm, if_neg hm, if_pos rfl]
    exact (List.perm_append_singleton e l).trans (c.insert_perm e l).symm

theorem clear_settled (c : Comparison E) (ts : TreeSet E) :
    ∃ ret ts', step ts (.clear true) = some (ret, ts') ∧
      Settled c ts (.clear true) ret ts' := by
  refine ⟨_, _, rfl, ?_, fun y _ => List.not_mem_nil, fun e' uf heq => by cases heq⟩
  rw [accepted_clear, List.append_nil]
  exact (postpurge_perm ts.root).symm

theorem remove_settled {c : Comparison E} {ts : TreeSet E} {l : List E} (h : Represents c ts l)
    {e : E} (hfree : HasFreeLink (find c.cmp e ts.root)) :
    ∃ ret ts', step ts (.remove e true) = some (ret, ts') ∧
      Settled c ts (.remove e true) ret ts' := by
  obtain ⟨calls, ts', hrem, hrep, _⟩ := tsRemove_spec h e true
  have hcalls := tsRemove_calls h hrem
  have hs : c.Increasing ts.root.inorder := h.avl.increasing
  refine ⟨_, ts', by simp only [step, hrem]; rfl, ?_⟩
  by_cases hm : c.Mem e l
  · obtain ⟨l', y, b, r', hfind, hy, hey, _⟩ := find_of_mem hs (h.inorder ▸ hm)
    have hone : calls = [y] := by
      rw [hcalls, hfind]
      rw [hfind] at hfree
      exact if_pos hfree
    obtain ⟨l₁, l₂, hsplit⟩ := List.append_of_mem hy
    have hcons : (ts.root.inorder ++ []).Perm (ts'.root.inorder ++ calls) := by
      rw [hrep.inorder, if_pos hm, ← h.inorder, hone, hsplit,
        c.erase_append_cons_of_eq (hsplit ▸ hs) hey, List.append_nil]
      exact List.perm_middle.trans (List.perm_append_singleton y (l₁ ++ l₂)).symm
    refine ⟨hcons, gone_of_conserved ?_ hcons, fun e' uf heq z hz hez => ?_⟩
    · rw [List.append_nil]
      exact c.increasing_nodup hs
    · obtain ⟨rfl, _⟩ := Op.remove.inj heq
      rw [c.increasing_eq_unique hs hz hy hez hey]
      exact hone
  · have hnull : find c.cmp e ts.root = null :=
      height_of_isNull ((find_isNull c e hs).mpr (h.inorder.symm ▸ hm))
    have hnone : calls = [] := by
      rw [hcalls, hnull]
      rfl
    refine ⟨?_, fun y hy => ?_, fun e' uf heq z hz hez => ?_⟩
    · rw [hrep.inorder, if_neg hm, h.inorder, hnone]
      simp [hm, accepted]
    · rw [hnone] at hy
      cases hy
    · obtain ⟨rfl, _⟩ := Op.remove.inj heq
      exact absurd ⟨z, h.inorder ▸ hz, hez⟩ hm

/-- A removal whose match has two children calls the user function on the heir instead. -/
theorem freeLink_of_settled {c : Comparison E} {ts ts' : TreeSet E} {l : List E}
    (h : Represents c ts l) {e : E} {ret : Ret E}
    (hstep : step ts (.remove e true) = some (ret, ts'))
    (hset : Settled c ts (.remove e true) ret ts') : HasFreeLink (find c.cmp e ts.root) := by
  have hs : c.Increasing ts.root.inorder := h.avl.increasing
  by_cases hm : c.Mem e ts.root.inorder
  · obtain ⟨l', y, b, r', hfind, hy, hey, hs'⟩ := find_of_mem hs hm
    rw [hfind]
    by_contra hfree
    obtain ⟨calls, ts₁, hrem, _, _⟩ := tsRemove_spec h e true
    simp only [step, hrem, Option.bind_eq_bind, Option.bind_some, Option.some.injEq,
      Prod.mk.injEq] at hstep
    have hcalls := tsRemove_calls h hrem
    have hlnull : l'.isNull = false := by simpa using fun hn => hfree (Or.inl hn)
    obtain ⟨xs, l'', z, q, hmax, hin⟩ := findMax_last hlnull
    have hheir : calls = [z] := by
      have hcalled : callsAt (node l' y b r') = (findMax l').element.toList := if_neg hfree
      rw [hcalls, hfind, hcalled, hmax]
      rfl
    have hmatched := hset.matched e true rfl y hy hey
    rw [← hstep.1, hheir] at hmatched
    obtain rfl := (List.cons.inj hmatched).1
    have hlt := (c.increasing_append_cons.mp hs').2.2.1 z (by rw [hin]; simp)
    rw [c.cmp_self] at hlt
    omega
  · rw [height_of_isNull ((find_isNull c e hs).mpr hm)]
    trivial

/-- What an owner expects of a run, which may end with `ts_destroy`: every call is settled, the user
function has been called once on each accepted element that is no longer stored, and the final
`ts_destroy` calls it on the others. -/
structure Owned (c : Comparison E) (ops : List (Op E)) : Prop where
  settled : ∀ pre op, pre ++ [op] <+: ops → ∃ rets ts ret ts', run c.cmp pre = some (rets, ts) ∧
    step ts op = some (ret, ts') ∧ Settled c ts op ret ts'
  books : ∃ rets ts, run c.cmp ops = some (rets, ts) ∧
    (List.zipWith accepted ops rets).flatten.Perm
      (ts.root.inorder ++ (rets.map Ret.calls).flatten) ∧
    (List.zipWith accepted ops rets).flatten.Perm
      ((rets.map Ret.calls).flatten ++ tsDestroy ts true)

theorem owned_of_settled {c : Comparison E} {ops : List (Op E)}
    (h : ∀ pre op, pre ++ [op] <+: ops → ∃ rets ts ret ts', run c.cmp pre = some (rets, ts) ∧
      step ts op = some (ret, ts') ∧ Settled c ts op ret ts') : Owned c ops := by
  obtain ⟨rets, ts, hrun, _, _⟩ := run_represents c ops
  have hbooks : (List.zipWith accepted ops rets).flatten.Perm
      (ts.root.inorder ++ (rets.map Ret.calls).flatten) := by
    refine Machine.run_conserves (fun ts => ts.root.inorder) accepted Ret.calls ?_ hrun
    intro pre op post heq ps t r v hpre hstep
    obtain ⟨_, _, ret, ts', hrun', hstep', hset⟩ := h pre op ⟨post, by simp [heq]⟩
    rw [run, hpre] at hrun'
    obtain ⟨rfl, rfl⟩ := Prod.mk.inj (Option.some.inj hrun')
    rw [hstep] at hstep'
    obtain ⟨rfl, rfl⟩ := Prod.mk.inj (Option.some.inj hstep')
    exact hset.conserved
  have hdestroy : (ts.root.inorder ++ (rets.map Ret.calls).flatten).Perm
      ((rets.map Ret.calls).flatten ++ tsDestroy ts true) :=
    List.perm_append_comm.trans ((postpurge_perm ts.root).symm.append_left _)
  exact ⟨h, rets, ts, hrun, hbooks, hbooks.trans hdestroy⟩

/-- Every `ts_remove` of the run that finds its element finds it in a node with a NULL link. -/
def MatchesHaveFreeLink (c : Comparison E) (ops : List (Op E)) : Prop :=
  ∀ pre e, pre ++ [.remove e true] <+: ops → ∀ rets ts, run c.cmp pre = some (rets, ts) →
    HasFreeLink (find c.cmp e ts.root)

/-- The elements of a run are accounted for if and only if no removal of it matches a node with two
children. -/
theorem owned_iff_matches_have_free_link (c : Comparison E) (ops : List (Op E))
    (hops : ∀ op ∈ ops, op.Owning) : Owned c ops ↔ MatchesHaveFreeLink c ops := by
  constructor
  · intro h pre e hpre rets ts hrun
    obtain ⟨_, _, hrun₁, _, hrep⟩ := run_represents c pre
    obtain ⟨_, _, ret, ts', hrun₂, hstep, hset⟩ := h.settled pre _ hpre
    rw [hrun] at hrun₁ hrun₂
    obtain ⟨rfl, rfl⟩ := Prod.mk.inj (Option.some.inj hrun₁)
    obtain ⟨rfl, rfl⟩ := Prod.mk.inj (Option.some.inj hrun₂)
    exact freeLink_of_settled hrep hstep hset
  · intro h
    apply owned_of_settled
    intro pre op hpre
    obtain ⟨rets, ts, hrun, _, hrep⟩ := run_represents c pre
    have howning := hops op (hpre.subset (by simp))
    have hset : ∃ ret ts', step ts op = some (ret, ts') ∧ Settled c ts op ret ts' := by
      cases op with
      | add e => exact add_settled hrep e
      | remove e uf =>
        obtain rfl : uf = true := howning
        exact remove_settled hrep (h pre e hpre rets ts hrun)
      | clear uf =>
        obtain rfl : uf = true := howning
        exact clear_settled c ts
      | pollFirst => exact howning.elim
      | pollLast => exact howning.elim
      | contains e => exact howning.elim
    obtain ⟨ret, ts', hstep, hset⟩ := hset
    exact ⟨rets, ts, ret, ts', hrun, hstep, hset⟩

theorem owned_iff_matches_have_free_link_two :
    Owned intComparison [.add 2, .add 1, .remove 2 true, .clear true] ↔
      MatchesHaveFreeLink intComparison [.add 2, .add 1, .remove 2 true, .clear true] :=
  owned_iff_matches_have_free_link intComparison _ (by simp [Op.Owning])

/-- Removing 2 from the set 1, 2, 3 calls the user function on 1, which stays in the set. -/
theorem remove_calls_heir : ¬ ∀ (c : Comparison ℤ) (ops : List (Op ℤ)),
    (∀ op ∈ ops, op.Owning) → Owned c ops := by
  intro h
  have howned := h intComparison [.add 2, .add 1, .add 3, .remove 2 true] (by simp [Op.Owning])
  obtain ⟨rets, ts, ret, ts', hrun, hstep, hset⟩ :=
    howned.settled [.add 2, .add 1, .add 3] (.remove 2 true) (List.prefix_refl _)
  have hrun' : run intComparison.cmp [.add 2, .add 1, .add 3] =
      some ([⟨1, none, []⟩, ⟨1, none, []⟩, ⟨1, none, []⟩],
        ⟨3, node (node null 1 0 null) 2 0 (node null 3 0 null), intComparison.cmp⟩) := rfl
  rw [hrun'] at hrun
  obtain ⟨rfl, rfl⟩ := Prod.mk.inj (Option.some.inj hrun)
  have hstep' : step ⟨3, node (node null 1 0 null) 2 0 (node null 3 0 null), intComparison.cmp⟩
      (.remove 2 true) = some (⟨1, none, [1]⟩,
        ⟨2, node null 1 1 (node null 3 0 null), intComparison.cmp⟩) := rfl
  rw [hstep'] at hstep
  obtain ⟨rfl, rfl⟩ := Prod.mk.inj (Option.some.inj hstep)
  exact hset.gone 1 List.mem_cons_self List.mem_cons_self

end CIS415.TreeSet
