import CIS415.TreeSetSpec

/-!
# The size field of the tree set

`ts_add` and `ts_remove` count, `ts_clear` resets, but `ts_pollFirst` and `ts_pollLast` remove a
node without counting it. The field therefore exceeds the number of nodes by the polls of a
non-empty set made since the last reset, and it is exact in every state of a run precisely when no
such poll is made.
-/

namespace CIS415.TreeSet

open OrderedList TNode

variable {E : Type}

/-- What `populate` writes into the slots from `len` on: the in-order sequence, when it fits. -/
theorem populate_spec (t : TNode E) (pre slots : List (Option E))
    (hlen : t.inorder.length ≤ slots.length) :
    populate ⟨pre ++ slots, pre.length⟩ t =
      some ⟨pre ++ (t.inorder.map some ++ slots.drop t.inorder.length),
        pre.length + t.inorder.length⟩ := by
  induction t generalizing pre slots with
  | null => simp [populate]
  | node l x b r ihl ihr =>
    simp only [inorder_node, List.length_append, List.length_cons] at hlen
    have hl := ihl pre slots (by omega)
    obtain ⟨y, rest, hrest⟩ : ∃ y rest, slots.drop l.inorder.length = y :: rest :=
      List.exists_cons_of_length_pos (by rw [List.length_drop]; omega)
    have hrestlen : rest.length + 1 + l.inorder.length = slots.length := by
      have h := congrArg List.length hrest
      rw [List.length_drop, List.length_cons] at h
      omega
    have hpush : PopStruct.push ⟨pre ++ (l.inorder.map some ++ y :: rest),
          pre.length + l.inorder.length⟩ x =
        some ⟨(pre ++ l.inorder.map some ++ [some x]) ++ rest,
          (pre ++ l.inorder.map some ++ [some x]).length⟩ := by
      rw [PopStruct.push, if_pos (by simp), ← List.append_assoc,
        List.set_append_right _ _ (by simp)]
      simp [Nat.add_assoc]
    have hr := ihr (pre ++ l.inorder.map some ++ [some x]) rest (by omega)
    have hdrop : slots.drop (l.inorder.length + (r.inorder.length + 1)) =
        rest.drop r.inorder.length := by
      rw [← List.drop_drop, hrest, List.drop_succ_cons]
    rw [hrest] at hl
    simp only [populate, hl, hpush, Option.bind_eq_bind, Option.bind_some]
    rw [hr]
    simp [hdrop, Nat.add_assoc, Nat.add_comm 1]

theorem genArray_spec {ts : TreeSet E} (hlt : 0 < ts.size)
    (hle : (ts.root.inorder.length : ℤ) ≤ ts.size) :
    genArray true ts = some (some ⟨ts.root.inorder.map some ++
      List.replicate (ts.size.toNat - ts.root.inorder.length) none, ts.root.inorder.length⟩) := by
  have h := populate_spec ts.root [] (List.replicate ts.size.toNat none)
    (by rw [List.length_replicate]; omega)
  simp only [List.nil_append, List.length_nil, List.drop_replicate, Nat.zero_add] at h
  rw [genArray, if_pos ⟨hlt, rfl⟩, h]
  rfl

theorem tsItCreate_exact {ts : TreeSet E} (hne : ts.root.inorder ≠ [])
    (hsize : ts.size = ts.root.inorder.length) :
    tsItCreate true ts = some (some ⟨0, ts.root.inorder.length, ts.root.inorder.map some⟩) := by
  have hpos : 0 < ts.size := by
    rw [hsize]
    exact_mod_cast List.length_pos_of_ne_nil hne
  have harr := genArray_spec hpos hsize.ge
  rw [hsize, Int.toNat_natCast, Nat.sub_self, List.replicate_zero, List.append_nil] at harr
  simp only [tsItCreate, harr, hsize, Option.bind_eq_bind, Option.bind_some]
  rfl

/-- The size field is exact, with what the header promises from it: `ts_size` and `ts_isEmpty` agree
with the contents, and the length that `ts_toArray` reports is the number of slots it filled. -/
structure SizeAgrees (ts : TreeSet E) : Prop where
  size : ts.size = ts.root.numNodes
  tsSize : tsSize ts = ts.root.inorder.length
  tsIsEmpty : tsIsEmpty ts = 1 ↔ ts.root.inorder = []
  tsToArray : ∀ ps, genArray true ts = some (some ps) →
    tsToArray true ts = some (some (ps.a, (ps.len : ℤ)))

theorem sizeAgrees_iff {ts : TreeSet E} : SizeAgrees ts ↔ ts.size = ts.root.numNodes := by
  refine ⟨SizeAgrees.size, fun h => ⟨h, ?_, ?_, ?_⟩⟩
  · rw [TreeSet.tsSize, h, length_inorder]
  · simp [TreeSet.tsIsEmpty, h, ← length_inorder]
  · intro ps hps
    have hlt : 0 < ts.size := by
      by_contra hn
      rw [genArray, if_neg (fun h => hn h.1)] at hps
      cases hps
    have harr := genArray_spec hlt (by rw [h, length_inorder])
    rw [hps, Option.some.injEq, Option.some.injEq] at harr
    simp only [TreeSet.tsToArray, hps, Option.bind_eq_bind, Option.bind_some, harr, h,
      length_inorder]

def Op.isPoll : Op E → Bool
  | .pollFirst => true
  | .pollLast => true
  | _ => false

/-- The nodes a call leaves uncounted on top of the `d` nodes uncounted before it. -/
def uncounted (l : List E) (d : ℤ) : Op E → ℤ
  | .clear _ => 0
  | .pollFirst => if l = [] then d else d + 1
  | .pollLast => if l = [] then d else d + 1
  | _ => d

/-- One call: how the field and the number of elements move apart. -/
theorem step_size {c : Comparison E} {ts : TreeSet E} {l : List E} (h : Represents c ts l)
    (op : Op E) :
    ∃ ret ts', step ts op = some (ret, ts') ∧ Represents c ts' (setStep c l op).2 ∧
      ts'.size - (setStep c l op).2.length = uncounted l (ts.size - l.length) op := by
  have hs : c.Increasing l := h.inorder ▸ h.avl.increasing
  cases op with
  | add e =>
    obtain ⟨ts', hadd, hrep, hsize⟩ := tsAdd_spec h e
    refine ⟨_, ts', by simp only [step, hadd]; rfl, ?_, ?_⟩
    · by_cases hm : c.Mem e l <;> simpa [setStep, hm] using hrep
    · by_cases hm : c.Mem e l <;> simp [setStep, uncounted, hm, hsize, c.length_insert]
  | remove e uf =>
    obtain ⟨calls, ts', hrem, hrep, hsize⟩ := tsRemove_spec h e uf
    refine ⟨_, ts', by simp only [step, hrem]; rfl, ?_, ?_⟩
    · by_cases hm : c.Mem e l <;> simpa [setStep, hm] using hrep
    · by_cases hm : c.Mem e l
      · have hlen := c.length_erase hs hm
        simp only [setStep, uncounted, hm, hsize, if_true]
        omega
      · simp [setStep, uncounted, hm, hsize]
  | pollFirst =>
    obtain ⟨ts', hpoll, hrep, hsize⟩ := tsPollFirst_spec h
    refine ⟨_, ts', by simp only [step, hpoll]; rfl, ?_, ?_⟩
    · cases l <;> simpa [setStep] using hrep
    · cases l with
      | nil => simp [setStep, uncounted, hsize]
      | cons x l =>
        simp only [setStep, uncounted, hsize, List.length_cons, reduceCtorEq, if_false]
        omega
  | pollLast =>
    obtain ⟨ts', hpoll, hrep, hsize⟩ := tsPollLast_spec h
    refine ⟨_, ts', by simp only [step, hpoll]; rfl, ?_, ?_⟩
    · cases l <;> simpa [setStep] using hrep
    · cases l with
      | nil => simp [setStep, uncounted, hsize]
      | cons x l =>
        simp only [setStep, uncounted, hsize, List.isEmpty_cons, Bool.false_eq_true, if_false,
          List.length_dropLast, List.length_cons, reduceCtorEq]
        omega
  | clear uf => exact ⟨_, _, rfl, ⟨h.cmp, avl_null c, rfl⟩, rfl⟩
  | contains e => exact ⟨_, ts, rfl, h, rfl⟩

theorem run_snoc {c : Comparison E} {pre : List (Op E)} {rets : List (Ret E)} {ts ts' : TreeSet E}
    {op : Op E} {ret : Ret E} (hrun : run c.cmp pre = some (rets, ts))
    (hstep : step ts op = some (ret, ts')) :
    run c.cmp (pre ++ [op]) = some (rets ++ [ret], ts') :=
  Machine.run_append hrun (by simp [Machine.run, hstep])

/-- While only empty sets are polled, the field counts the elements. -/
theorem size_of_polls_empty (c : Comparison E) {ops : List (Op E)}
    (hops : ∀ pre op, pre ++ [op] <+: ops → op.isPoll → ∀ rets ts,
      run c.cmp pre = some (rets, ts) → ts.root.isNull) (pre : List (Op E)) (hpre : pre <+: ops) :
    ∃ rets ts l, run c.cmp pre = some (rets, ts) ∧ Represents c ts l ∧ ts.size = l.length := by
  induction pre using List.reverseRecOn with
  | nil => exact ⟨[], tsCreate c.cmp, [], rfl, represents_tsCreate c, rfl⟩
  | append_singleton pre op ih =>
    obtain ⟨rets, ts, l, hrun, hrep, hsize⟩ := ih ((List.prefix_append pre [op]).trans hpre)
    obtain ⟨ret, ts', hstep, hrep', hdiff⟩ := step_size hrep op
    refine ⟨rets ++ [ret], ts', _, run_snoc hrun hstep, hrep', ?_⟩
    have hnil : op.isPoll → l = [] := fun hpoll => by
      rw [← hrep.inorder]
      exact isNull_iff_inorder_nil.mp (hops pre op hpre hpoll rets ts hrun)
    have hzero : uncounted l (ts.size - l.length) op = 0 := by
      rw [hsize, sub_self]
      cases op <;> simp_all [uncounted, Op.isPoll]
    omega

/-- The field is exact in every state of a run if and only if no poll of the run meets a non-empty
set. -/
theorem size_agrees_iff_polls_empty (c : Comparison E) (ops : List (Op E)) :
    (∀ pre, pre <+: ops → ∃ rets ts, run c.cmp pre = some (rets, ts) ∧ SizeAgrees ts) ↔
      ∀ pre op, pre ++ [op] <+: ops → op.isPoll → ∀ rets ts,
        run c.cmp pre = some (rets, ts) → ts.root.isNull := by
  constructor
  · intro h pre op hpre hpoll rets ts hrun
    obtain ⟨_, ts₁, hrun₁, _, hrep⟩ := run_represents c pre
    obtain rfl : ts₁ = ts := by
      rw [hrun] at hrun₁
      exact (Prod.mk.inj (Option.some.inj hrun₁)).2.symm
    obtain ⟨ret, ts', hstep, hrep', hdiff⟩ := step_size hrep op
    have hagree : ts₁.size = ts₁.root.numNodes := by
      obtain ⟨_, _, hrun₂, hag⟩ := h pre ((List.prefix_append pre [op]).trans hpre)
      rw [hrun] at hrun₂
      obtain ⟨rfl, rfl⟩ := Prod.mk.inj (Option.some.inj hrun₂)
      exact hag.size
    have hagree' : ts'.size = ts'.root.numNodes := by
      obtain ⟨_, _, hrun₂, hag⟩ := h (pre ++ [op]) hpre
      rw [run_snoc hrun hstep] at hrun₂
      obtain ⟨rfl, rfl⟩ := Prod.mk.inj (Option.some.inj hrun₂)
      exact hag.size
    rw [← length_inorder, hrep.inorder] at hagree
    rw [← length_inorder, hrep'.inorder] at hagree'
    rw [hagree, hagree', sub_self, sub_self] at hdiff
    rw [isNull_iff_inorder_nil, hrep.inorder]
    by_contra hne
    cases op <;> simp_all [uncounted, Op.isPoll]
  · intro h pre hpre
    obtain ⟨rets, ts, l, hrun, hrep, hsize⟩ := size_of_polls_empty c h pre hpre
    refine ⟨rets, ts, hrun, sizeAgrees_iff.mpr ?_⟩
    rw [hsize, ← hrep.inorder, length_inorder]

def intComparison : Comparison ℤ where
  cmp a b := a - b
  swap a b := by omega
  trans a b d := by omega

/-- One addition and one poll leave an empty tree whose size field is 1. -/
theorem pollFirst_leaves_size : ¬ ∀ (c : Comparison ℤ) (ops : List (Op ℤ)),
    ∃ rets ts, run c.cmp ops = some (rets, ts) ∧ SizeAgrees ts := by
  intro h
  obtain ⟨rets, ts, hrun, hag⟩ := h intComparison [.add 5, .pollFirst]
  have hres : run intComparison.cmp [.add 5, .pollFirst] =
      some ([⟨1, none, []⟩, ⟨1, some 5, []⟩], ⟨1, null, intComparison.cmp⟩) := rfl
  rw [hres] at hrun
  obtain ⟨_, rfl⟩ := Prod.mk.inj (Option.some.inj hrun)
  have hsize := hag.size
  simp [numNodes] at hsize

end CIS415.TreeSet
