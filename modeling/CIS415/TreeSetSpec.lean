import CIS415.TreeSetBalance

/-!
# The tree set as a sorted finite set

The abstract machine keeps the stored elements as a strictly increasing list. Every sequence of
calls on the AVL tree answers as that machine does and keeps the tree an AVL tree whose in-order
sequence is the abstract list.
-/

namespace CIS415.TreeSet

open OrderedList TNode

variable {E : Type}

/-- What the operations are for: the value and the delivered element of each call, and the sorted
list of elements after it. -/
def setStep (c : Comparison E) : List E → Op E → (ℤ × Option E) × List E
  | l, .add e => if c.Mem e l then ((0, none), l) else ((1, none), c.insert e l)
  | l, .remove e _ => if c.Mem e l then ((1, none), c.erase e l) else ((0, none), l)
  | [], .pollFirst => ((0, none), [])
  | x :: l, .pollFirst => ((1, some x), l)
  | l, .pollLast => if l.isEmpty then ((0, none), l) else ((1, l.getLast?), l.dropLast)
  | _, .clear _ => ((0, none), [])
  | l, .contains e => ((if c.Mem e l then 1 else 0, none), l)

/-- An AVL tree: sorted in-order sequence, and balance fields that are height differences in
`-1 .. 1`. -/
structure AVL (c : Comparison E) (t : TNode E) : Prop where
  increasing : c.Increasing t.inorder
  balanced : t.Balanced

theorem avl_null (c : Comparison E) : AVL c null := ⟨by simp, trivial⟩

theorem find_isNull (c : Comparison E) (e : E) {t : TNode E} (hs : c.Increasing t.inorder) :
    (find c.cmp e t).isNull = true ↔ ¬ c.Mem e t.inorder := by
  induction t with
  | null => simp [find, isNull]
  | node l x b r ihl ihr =>
    obtain ⟨hl, hr, _, _⟩ := c.increasing_append_cons.mp hs
    rw [inorder_node]
    by_cases hlt : c.cmp e x < 0
    · rw [c.mem_append_cons_of_lt hs hlt, ← ihl hl, find, if_pos hlt]
    · by_cases hgt : c.cmp e x > 0
      · have hlt' : c.cmp x e < 0 := (c.swap x e).mpr hgt
        rw [c.mem_append_cons_of_gt hs hlt', ← ihr hr, find, if_neg hlt, if_pos hgt]
      · have hmem : c.Mem e (l.inorder ++ x :: r.inorder) := ⟨x, by simp, by omega⟩
        simp [find, hlt, hgt, isNull, hmem]

theorem isNull_iff_inorder_nil {t : TNode E} : t.isNull = true ↔ t.inorder = [] := by
  cases t with
  | null => simp [isNull]
  | node l x b r => simp [isNull]

theorem insert_avl {c : Comparison E} {t : TNode E} (h : AVL c t) {e : E}
    (he : ¬ c.Mem e t.inorder) :
    ∃ t' done, insert c.cmp true e t false = some (t', done) ∧ AVL c t' ∧
      t'.inorder = c.insert e t.inorder := by
  obtain ⟨t', done, ht', hins⟩ := insert_spec c e h.balanced h.increasing
  refine ⟨t', done, ht', ⟨?_, hins.balanced⟩, hins.inorder⟩
  rw [hins.inorder]
  exact c.insert_increasing h.increasing he

theorem remove_avl {c : Comparison E} (uf : Bool) {t : TNode E} (h : AVL c t) {e : E}
    (he : c.Mem e t.inorder) :
    ∃ t' done calls, remove c.cmp uf t e false = some (t', done, calls) ∧ AVL c t' ∧
      t'.inorder = c.erase e t.inorder := by
  obtain ⟨t', done, calls, ht', hrem⟩ := remove_spec c uf e h.balanced h.increasing he
  refine ⟨t', done, calls, ht', ⟨?_, hrem.balanced⟩, hrem.inorder⟩
  rw [hrem.inorder]
  exact c.erase_increasing h.increasing

theorem remove_findMin {c : Comparison E} {t : TNode E} (h : AVL c t) (ht : t.isNull = false) :
    ∃ x xs b r t' done calls, findMin t = node null x b r ∧ t.inorder = x :: xs ∧
      remove c.cmp false t x false = some (t', done, calls) ∧ AVL c t' ∧ t'.inorder = xs := by
  obtain ⟨xs, x, b, r, hmin, hin⟩ := findMin_head ht
  obtain ⟨t', done, calls, ht', havl, hin'⟩ :=
    remove_avl false h (e := x) ⟨x, by rw [hin]; simp, c.cmp_self x⟩
  refine ⟨x, xs, b, r, t', done, calls, hmin, hin, ht', havl, ?_⟩
  rw [hin', hin]
  exact c.erase_append_cons_of_eq (l := []) (hin ▸ h.increasing) (c.cmp_self x)

theorem remove_findMax {c : Comparison E} {t : TNode E} (h : AVL c t) (ht : t.isNull = false) :
    ∃ x xs l b t' done calls, findMax t = node l x b null ∧ t.inorder = xs ++ [x] ∧
      remove c.cmp false t x false = some (t', done, calls) ∧ AVL c t' ∧ t'.inorder = xs := by
  obtain ⟨xs, l, x, b, hmax, hin⟩ := findMax_last ht
  obtain ⟨t', done, calls, ht', havl, hin'⟩ :=
    remove_avl false h (e := x) ⟨x, by rw [hin]; simp, c.cmp_self x⟩
  refine ⟨x, xs, l, b, t', done, calls, hmax, hin, ht', havl, ?_⟩
  rw [hin', hin, c.erase_append_cons_of_eq (hin ▸ h.increasing) (c.cmp_self x), List.append_nil]

/-- The tree set `ts` holds the abstract set `l`. -/
structure Represents (c : Comparison E) (ts : TreeSet E) (l : List E) : Prop where
  cmp : ts.cmp = c.cmp
  avl : AVL c ts.root
  inorder : ts.root.inorder = l

theorem represents_tsCreate (c : Comparison E) : Represents c (tsCreate c.cmp) [] :=
  ⟨rfl, avl_null c, rfl⟩

theorem tsAdd_spec {c : Comparison E} {ts : TreeSet E} {l : List E} (h : Represents c ts l)
    (e : E) :
    ∃ ts', tsAdd true ts e = some (if c.Mem e l then 0 else 1, ts') ∧
      Represents c ts' (if c.Mem e l then l else c.insert e l) ∧
      ts'.size = ts.size + if c.Mem e l then 0 else 1 := by
  obtain ⟨hcmp, havl, rfl⟩ := h
  have hfind := find_isNull c e havl.increasing
  by_cases hm : c.Mem e ts.root.inorder
  · have hf : (find c.cmp e ts.root).isNull = false := by
      rw [Bool.eq_false_iff]
      exact fun hn => hfind.mp hn hm
    refine ⟨ts, ?_, ⟨hcmp, havl, by rw [if_pos hm]⟩, by rw [if_pos hm, add_zero]⟩
    rw [tsAdd, hcmp, hf, if_pos hm]
    rfl
  · obtain ⟨t', done, ht', havl', hin⟩ := insert_avl havl hm
    refine ⟨⟨ts.size + 1, t', ts.cmp⟩, ?_, ⟨hcmp, havl', by rw [if_neg hm, hin]⟩,
      by rw [if_neg hm]⟩
    rw [tsAdd, hcmp, if_pos (hfind.mpr hm), ht', if_neg hm]
    rfl

theorem tsRemove_spec {c : Comparison E} {ts : TreeSet E} {l : List E} (h : Represents c ts l)
    (e : E) (uf : Bool) :
    ∃ calls ts', tsRemove ts e uf = some (if c.Mem e l then 1 else 0, calls, ts') ∧
      Represents c ts' (if c.Mem e l then c.erase e l else l) ∧
      ts'.size = ts.size - if c.Mem e l then 1 else 0 := by
  obtain ⟨hcmp, havl, rfl⟩ := h
  have hfind := find_isNull c e havl.increasing
  by_cases hm : c.Mem e ts.root.inorder
  · have hf : (find c.cmp e ts.root).isNull = false := by
      rw [Bool.eq_false_iff]
      exact fun hn => hfind.mp hn hm
    obtain ⟨t', done, calls, ht', havl', hin⟩ := remove_avl uf havl hm
    refine ⟨calls, ⟨ts.size - 1, t', ts.cmp⟩, ?_, ⟨hcmp, havl', by rw [if_pos hm, hin]⟩,
      by rw [if_pos hm]⟩
    rw [tsRemove, hcmp, hf, if_neg Bool.false_ne_true, ht', if_pos hm]
    rfl
  · refine ⟨[], ts, ?_, ⟨hcmp, havl, by rw [if_neg hm]⟩, by rw [if_neg hm, sub_zero]⟩
    rw [tsRemove, hcmp, if_pos (hfind.mpr hm), if_neg hm]

theorem tsPollFirst_spec {c : Comparison E} {ts : TreeSet E} {l : List E}
    (h : Represents c ts l) :
    ∃ ts', tsPollFirst ts = some (if l = [] then 0 else 1, l.head?, ts') ∧
      Represents c ts' l.tail ∧ ts'.size = ts.size := by
  obtain ⟨hcmp, havl, rfl⟩ := h
  cases hn : ts.root.isNull with
  | true =>
    have hroot := height_of_isNull hn
    refine ⟨ts, ?_, ⟨hcmp, havl, by simp [hroot]⟩, rfl⟩
    simp [tsPollFirst, hroot, findMin]
  | false =>
    obtain ⟨x, xs, b, r, t', done, calls, hmin, hin, ht', havl', hin'⟩ := remove_findMin havl hn
    refine ⟨⟨ts.size, t', ts.cmp⟩, ?_, ⟨hcmp, havl', by rw [hin, hin']; rfl⟩, rfl⟩
    simp [tsPollFirst, hmin, hcmp, ht', hin]

theorem tsPollLast_spec {c : Comparison E} {ts : TreeSet E} {l : List E}
    (h : Represents c ts l) :
    ∃ ts', tsPollLast ts = some (if l = [] then 0 else 1, l.getLast?, ts') ∧
      Represents c ts' l.dropLast ∧ ts'.size = ts.size := by
  obtain ⟨hcmp, havl, rfl⟩ := h
  cases hn : ts.root.isNull with
  | true =>
    have hroot := height_of_isNull hn
    refine ⟨ts, ?_, ⟨hcmp, havl, by simp [hroot]⟩, rfl⟩
    simp [tsPollLast, hroot, findMax]
  | false =>
    obtain ⟨x, xs, l', b, t', done, calls, hmax, hin, ht', havl', hin'⟩ := remove_findMax havl hn
    refine ⟨⟨ts.size, t', ts.cmp⟩, ?_, ⟨hcmp, havl', by rw [hin, hin']; simp⟩, rfl⟩
    simp [tsPollLast, hmax, hcmp, ht', hin]

theorem tsContains_spec {c : Comparison E} {ts : TreeSet E} {l : List E} (h : Represents c ts l)
    (e : E) : tsContains ts e = if c.Mem e l then 1 else 0 := by
  obtain ⟨hcmp, havl, rfl⟩ := h
  have hfind := find_isNull c e havl.increasing
  rw [tsContains, hcmp]
  by_cases hm : c.Mem e ts.root.inorder
  · rw [if_pos hm, if_neg (fun hn => hfind.mp hn hm)]
  · rw [if_neg hm, if_pos (hfind.mpr hm)]

/-- Every call answers as the abstract set does and leads to a set holding the abstract result. -/
def simulation (c : Comparison E) :
    Machine.Simulation (step (E := E)) (setStep c) (fun _ _ => True) where
  rel := Represents c
  obs ret := (ret.value, ret.element)
  simulates ts l op h _ := by
    cases op with
    | add e =>
      obtain ⟨ts', hadd, hrep, _⟩ := tsAdd_spec h e
      refine ⟨_, ts', by simp only [step, hadd]; rfl, ?_, ?_⟩
      · by_cases hm : c.Mem e l <;> simp [setStep, hm]
      · by_cases hm : c.Mem e l <;> simpa [setStep, hm] using hrep
    | remove e uf =>
      obtain ⟨calls, ts', hrem, hrep, _⟩ := tsRemove_spec h e uf
      refine ⟨_, ts', by simp only [step, hrem]; rfl, ?_, ?_⟩
      · by_cases hm : c.Mem e l <;> simp [setStep, hm]
      · by_cases hm : c.Mem e l <;> simpa [setStep, hm] using hrep
    | pollFirst =>
      obtain ⟨ts', hpoll, hrep, _⟩ := tsPollFirst_spec h
      refine ⟨_, ts', by simp only [step, hpoll]; rfl, ?_, ?_⟩
      · cases l <;> simp [setStep]
      · cases l <;> simpa [setStep] using hrep
    | pollLast =>
      obtain ⟨ts', hpoll, hrep, _⟩ := tsPollLast_spec h
      refine ⟨_, ts', by simp only [step, hpoll]; rfl, ?_, ?_⟩
      · cases l <;> simp [setStep]
      · cases l <;> simpa [setStep] using hrep
    | clear uf => exact ⟨_, _, rfl, rfl, ⟨h.cmp, avl_null c, rfl⟩⟩
    | contains e =>
      refine ⟨_, ts, rfl, ?_, h⟩
      simp [setStep, tsContains_spec h e]

theorem run_represents (c : Comparison E) (ops : List (Op E)) :
    ∃ rets ts, run c.cmp ops = some (rets, ts) ∧
      rets.map (fun ret => (ret.value, ret.element)) = (Machine.specRun (setStep c) [] ops).1 ∧
      Represents c ts (Machine.specRun (setStep c) [] ops).2 :=
  (simulation c).run (represents_tsCreate c) (Machine.legal_true _ _ ops)

/-- After any sequence of calls the tree is an AVL tree, with the Fibonacci number of nodes its
height asks for. -/
theorem run_avl (c : Comparison E) (ops : List (Op E)) :
    ∃ rets ts, run c.cmp ops = some (rets, ts) ∧ AVL c ts.root ∧
      Nat.fib (ts.root.height + 2) - 1 ≤ ts.root.numNodes := by
  obtain ⟨rets, ts, hrun, _, hrep⟩ := run_represents c ops
  have hfib := fib_le_numNodes hrep.avl.balanced
  exact ⟨rets, ts, hrun, hrep.avl, by omega⟩

/-- The results of any sequence of calls, and the stored elements after it, are those of the
sorted finite set. -/
theorem run_eq_sorted_set (c : Comparison E) (ops : List (Op E)) :
    ∃ rets ts, run c.cmp ops = some (rets, ts) ∧
      rets.map (fun ret => (ret.value, ret.element)) = (Machine.specRun (setStep c) [] ops).1 ∧
      ts.root.inorder = (Machine.specRun (setStep c) [] ops).2 ∧ c.Increasing ts.root.inorder := by
  obtain ⟨rets, ts, hrun, hres, hrep⟩ := run_represents c ops
  exact ⟨rets, ts, hrun, hres, hrep.inorder, hrep.avl.increasing⟩

end CIS415.TreeSet
