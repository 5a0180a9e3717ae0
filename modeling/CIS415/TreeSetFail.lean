import CIS415.TreeSetNavigate

/-!
# A tree set without memory

The allocation of a node fails in `newNode`, below the recursion of `insert`. `insert` hands NULL back as
it hands back a new leaf, so the callers above it and `ts_add` take the element for added.
-/

namespace CIS415.TreeSet

open OrderedList TNode

variable {E : Type}

/-- What should come of an addition that gets no node: no NULL link is followed, the call does not
report an addition, and the set is as it was. -/
def FailsCleanly (ts : TreeSet E) (e : E) : Prop :=
  ∃ v ts', tsAdd false ts e = some (v, ts') ∧ v ≠ 1 ∧ ts' = ts

/-- `insert` hands NULL back as it hands back a new leaf, so `ts_add` counts a node it did not get
and reports the addition, unless the rebalancing follows the NULL link first. -/
theorem tsAdd_no_node {c : Comparison E} {ts : TreeSet E} {l : List E} (h : Represents c ts l)
    {e : E} (he : ¬ c.Mem e l) :
    tsAdd false ts e = none ∨
      ∃ ts', tsAdd false ts e = some (1, ts') ∧ ts'.size = ts.size + 1 := by
  have hfind := (find_isNull c e h.avl.increasing).mpr (h.inorder.symm ▸ he)
  rw [tsAdd, h.cmp, if_pos hfind]
  cases insert c.cmp false e ts.root false with
  | none => exact Or.inl rfl
  | some p => exact Or.inr ⟨_, rfl, rfl⟩

/-- In no reachable set does the addition of a new element fail cleanly. -/
theorem add_never_fails_cleanly (c : Comparison E) (ops : List (Op E)) {rets : List (Ret E)}
    {ts : TreeSet E} (hrun : run c.cmp ops = some (rets, ts)) {e : E}
    (he : ¬ c.Mem e ts.root.inorder) : ¬ FailsCleanly ts e := by
  rintro ⟨v, ts', hadd, hv, _⟩
  obtain ⟨_, _, hrun', _, hrep⟩ := run_represents c ops
  rw [hrun] at hrun'
  obtain ⟨_, rfl⟩ := Prod.mk.inj (Option.some.inj hrun')
  rcases tsAdd_no_node hrep (hrep.inorder ▸ he) with hnone | ⟨ts₁, hone, _⟩
  · rw [hnone] at hadd
    cases hadd
  · rw [hone] at hadd
    exact hv (Prod.mk.inj (Option.some.inj hadd)).1.symm

theorem add_never_fails_cleanly_two :
    ¬ FailsCleanly ⟨1, node null 1 0 null, intComparison.cmp⟩ 2 :=
  add_never_fails_cleanly intComparison [.add 1] rfl (by decide)

/-- In the set 1, 3 an addition of 2 without a node follows the NULL link in its double rotation. -/
theorem add_two_follows_null : ¬ ∀ (c : Comparison ℤ) (ops : List (Op ℤ)) (rets : List (Ret ℤ))
    (ts : TreeSet ℤ) (e : ℤ), run c.cmp ops = some (rets, ts) → ¬ c.Mem e ts.root.inorder →
      FailsCleanly ts e := by
  intro h
  obtain ⟨v, ts', hadd, _⟩ := h intComparison [.add 3, .add 1] _ _ 2 rfl (by decide)
  have hnone : tsAdd false ⟨2, node (node null 1 0 null) 3 (-1) null, intComparison.cmp⟩ 2 = none :=
    rfl
  cases hnone.symm.trans hadd

end CIS415.TreeSet
