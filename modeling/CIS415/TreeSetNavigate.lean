import CIS415.TreeSetSize

/-!
# Navigation in the tree set

The four searches share one descent. `toward c dir` is the order in which a search looks for a
least element: the comparison itself for `ts_ceiling` and `ts_higher`, its opposite for `ts_floor`
and `ts_lower`. The invariant of the loop is that the candidate lies, in that order, after
everything in the subtree still to be searched, so a new candidate always replaces the old one.
-/

namespace CIS415.TreeSet

open OrderedList TNode

variable {E : Type}

def toward (c : Comparison E) (dir : Bool) : Comparison E :=
  if dir then c.flip else c

/-- The elements a search admits: those not before `e`, without those equal to `e` when the search
is a strict one. -/
def Admits (c : Comparison E) (stop : Bool) (e z : E) : Prop :=
  c.cmp e z < 0 ∨ stop = true ∧ c.cmp e z = 0

theorem Admits.le {c : Comparison E} {stop : Bool} {e z : E} (h : Admits c stop e z) :
    c.cmp e z ≤ 0 := by
  rcases h with h | ⟨_, h⟩
  · exact h.le
  · exact h.le

/-- The subtrees of a node as a search in the order `c` sees them: everything in `near` comes
before the element of the node, everything in `far` after it. -/
structure Around (c : Comparison E) (near : List E) (x : E) (far : List E) : Prop where
  near : ∀ a ∈ near, c.cmp a x < 0
  far : ∀ a ∈ far, c.cmp x a < 0

theorem least_at_node {c : Comparison E} {stop : Bool} {e x : E} {near far : List E}
    (h : Around c near x far) (hx : Admits c stop e x) (hnear : ∀ z ∈ near, ¬ Admits c stop e z)
    {xs : List E} (hxs : ∀ z, z ∈ xs ↔ z ∈ near ∨ z = x ∨ z ∈ far) :
    c.Least (Admits c stop e) xs x := by
  refine ⟨(hxs x).mpr (Or.inr (Or.inl rfl)), hx, fun z hz hadm => ?_⟩
  rcases (hxs z).mp hz with hz | rfl | hz
  · exact absurd hadm (hnear z hz)
  · exact (c.cmp_self z).le
  · exact (h.far z hz).le

theorem least_of_near {c : Comparison E} {stop : Bool} {e x y : E} {near far : List E}
    (h : Around c near x far) (hy : c.Least (Admits c stop e) near y)
    {xs : List E} (hxs : ∀ z, z ∈ xs ↔ z ∈ near ∨ z = x ∨ z ∈ far) :
    c.Least (Admits c stop e) xs y := by
  have hyx : c.cmp y x < 0 := h.near y hy.mem
  refine ⟨(hxs y).mpr (Or.inl hy.mem), hy.holds, fun z hz hadm => ?_⟩
  rcases (hxs z).mp hz with hz | rfl | hz
  · exact hy.le z hz hadm
  · exact hyx.le
  · exact (c.lt_trans hyx (h.far z hz)).le

theorem not_admits_near {c : Comparison E} {stop : Bool} {e x : E} {near far : List E}
    (h : Around c near x far) (hx : ¬ c.cmp e x < 0) : ∀ z ∈ near, ¬ Admits c stop e z :=
  fun z hz hadm => hx (c.lt_of_le_of_lt hadm.le (h.near z hz))

theorem least_of_far {c : Comparison E} {stop : Bool} {e x y : E} {near far : List E}
    (h : Around c near x far) (hx : ¬ c.cmp e x < 0) (hne : ¬ Admits c stop e x)
    (hy : c.Least (Admits c stop e) far y)
    {xs : List E} (hxs : ∀ z, z ∈ xs ↔ z ∈ near ∨ z = x ∨ z ∈ far) :
    c.Least (Admits c stop e) xs y := by
  refine ⟨(hxs y).mpr (Or.inr (Or.inr hy.mem)), hy.holds, fun z hz hadm => ?_⟩
  rcases (hxs z).mp hz with hz | rfl | hz
  · exact absurd hadm (not_admits_near h hx z hz)
  · exact absurd hadm hne
  · exact hy.le z hz hadm

def CandidateAfter (c : Comparison E) (current : TNode E) (xs : List E) : Prop :=
  ∀ y, current.element = some y → ∀ a ∈ xs, c.cmp a y < 0

theorem minNode_of_after {c : Comparison E} {l r current : TNode E} {x : E} {b : ℤ} {xs : List E}
    (hcur : CandidateAfter c current xs) (hx : x ∈ xs) :
    minNode c.cmp (node l x b r) current = node l x b r := by
  cases current with
  | null => rfl
  | node l' y b' r' =>
    have hlt : c.cmp x y < 0 := hcur y rfl x hx
    rw [minNode, if_neg (by omega)]

theorem maxNode_of_after {c : Comparison E} {l r current : TNode E} {x : E} {b : ℤ} {xs : List E}
    (hcur : CandidateAfter c.flip current xs) (hx : x ∈ xs) :
    maxNode c.cmp (node l x b r) current = node l x b r := by
  cases current with
  | null => rfl
  | node l' y b' r' =>
    have hlt : c.cmp y x < 0 := hcur y rfl x hx
    have hgt : ¬ c.cmp x y < 0 := by
      have := c.swap x y
      omega
    rw [maxNode, if_neg hgt]

/-- One round of the loop in the order of the search: the links of the node are `near` and `far`,
and a new candidate replaces the old one. -/
theorem navigate_node {c : Comparison E} (dir : Bool) {l r : TNode E} {x : E} {b : ℤ}
    (hs : c.Increasing (node l x b r).inorder) :
    ∃ near far : TNode E, Around (toward c dir) near.inorder x far.inorder ∧
      (near = l ∧ far = r ∨ near = r ∧ far = l) ∧
      ∀ (stop : Bool) (e : E) (current : TNode E),
        CandidateAfter (toward c dir) current (node l x b r).inorder →
        navigate c.cmp e stop dir (node l x b r) current =
          if stop ∧ (toward c dir).cmp e x = 0 then node l x b r
          else if (toward c dir).cmp e x < 0 then navigate c.cmp e stop dir near (node l x b r)
          else navigate c.cmp e stop dir far current := by
  obtain ⟨hl, hr, hlx, hxr⟩ := c.increasing_append_cons.mp hs
  have hmem : x ∈ (node l x b r).inorder := by simp
  cases dir with
  | false =>
    refine ⟨l, r, ⟨hlx, hxr⟩, Or.inl ⟨rfl, rfl⟩, fun stop e current hcur => ?_⟩
    have hmin := minNode_of_after (l := l) (r := r) (b := b) (c := c) hcur hmem
    rw [navigate, hmin]
    rfl
  | true =>
    refine ⟨r, l, ⟨hxr, hlx⟩, Or.inr ⟨rfl, rfl⟩, fun stop e current hcur => ?_⟩
    have hzero : c.cmp e x = 0 ↔ c.cmp x e = 0 := c.eq_zero_comm
    have hpos : c.cmp e x > 0 ↔ c.cmp x e < 0 := (c.swap x e).symm
    rw [navigate, maxNode_of_after hcur hmem]
    simp only [toward, if_true, Comparison.flip_cmp, hzero, hpos]

/-- The loop ends at the least admitted element of the subtree, or at the old candidate when there
is none. -/
theorem navigate_spec {c : Comparison E} (stop dir : Bool) (e : E) {t : TNode E}
    (hs : c.Increasing t.inorder) {current : TNode E}
    (hcur : CandidateAfter (toward c dir) current t.inorder) :
    (∃ y, (navigate c.cmp e stop dir t current).element = some y ∧
      (toward c dir).Least (Admits (toward c dir) stop e) t.inorder y) ∨
    (navigate c.cmp e stop dir t current = current ∧
      ∀ z ∈ t.inorder, ¬ Admits (toward c dir) stop e z) := by
  induction t generalizing current with
  | null => exact Or.inr ⟨rfl, fun z hz => absurd hz List.not_mem_nil⟩
  | node l x b r ihl ihr =>
    obtain ⟨hl, hr, _, _⟩ := c.increasing_append_cons.mp hs
    replace ihl := fun current hcur => @ihl hl current hcur
    replace ihr := fun current hcur => @ihr hr current hcur
    obtain ⟨near, far, haround, hlinks, hround⟩ := navigate_node dir hs
    have hxs : ∀ z, z ∈ (node l x b r).inorder ↔ z ∈ near.inorder ∨ z = x ∨ z ∈ far.inorder := by
      intro z
      rw [inorder_node, List.mem_append, List.mem_cons]
      rcases hlinks with ⟨rfl, rfl⟩ | ⟨rfl, rfl⟩ <;> tauto
    have ih : ∀ u, u = near ∨ u = far → ∀ current, CandidateAfter (toward c dir) current u.inorder →
        (∃ y, (navigate c.cmp e stop dir u current).element = some y ∧
          (toward c dir).Least (Admits (toward c dir) stop e) u.inorder y) ∨
        (navigate c.cmp e stop dir u current = current ∧
          ∀ z ∈ u.inorder, ¬ Admits (toward c dir) stop e z) := by
      rcases hlinks with ⟨rfl, rfl⟩ | ⟨rfl, rfl⟩ <;> rintro u (rfl | rfl) <;> assumption
    rw [hround stop e current hcur]
    by_cases heq : stop ∧ (toward c dir).cmp e x = 0
    · rw [if_pos heq]
      exact Or.inl ⟨x, rfl, least_at_node haround (Or.inr heq)
        (not_admits_near haround (by omega)) hxs⟩
    · rw [if_neg heq]
      by_cases hlt : (toward c dir).cmp e x < 0
      · -- the node is the candidate, and lies after everything in the link taken
        rw [if_pos hlt]
        have hafter : CandidateAfter (toward c dir) (node l x b r) near.inorder := by
          rintro y ⟨⟩ a ha
          exact haround.near a ha
        rcases ih near (Or.inl rfl) (node l x b r) hafter with ⟨y, hy, hleast⟩ | ⟨hnav, hnone⟩
        · exact Or.inl ⟨y, hy, least_of_near haround hleast hxs⟩
        · exact Or.inl ⟨x, by rw [hnav]; rfl, least_at_node haround (Or.inl hlt) hnone hxs⟩
      · rw [if_neg hlt]
        have hnot : ¬ Admits (toward c dir) stop e x := by
          rintro (h | h)
          · exact hlt h
          · exact heq h
        have hafter : CandidateAfter (toward c dir) current far.inorder :=
          fun y hy a ha => hcur y hy a ((hxs a).mpr (Or.inr (Or.inr ha)))
        rcases ih far (Or.inr rfl) current hafter with ⟨y, hy, hleast⟩ | ⟨hnav, hnone⟩
        · exact Or.inl ⟨y, hy, least_of_far haround hlt hnot hleast hxs⟩
        · refine Or.inr ⟨hnav, fun z hz => ?_⟩
          rcases (hxs z).mp hz with hz | rfl | hz
          · exact not_admits_near haround hlt z hz
          · exact hnot
          · exact hnone z hz

/-- A search hands over the least element of `xs` with the property `p`, or stores nothing and
returns 0 when `xs` has none. -/
def Delivers (c : Comparison E) (p : E → Prop) (xs : List E) (res : ℤ × Option E) : Prop :=
  (∃ y, res = (1, some y) ∧ c.Least p xs y) ∨ (res = (0, none) ∧ ∀ y ∈ xs, ¬ p y)

theorem deliver_of_element {t : TNode E} {y : E} (h : t.element = some y) :
    deliver t = (1, some y) := by
  cases t with
  | null => cases h
  | node l x b r =>
    obtain rfl := Option.some.inj h
    rfl

theorem Delivers.congr {c : Comparison E} {p q : E → Prop} {xs : List E} {res : ℤ × Option E}
    (h : Delivers c p xs res) (hpq : ∀ y, p y ↔ q y) : Delivers c q xs res := by
  rwa [show q = p from funext fun y => propext (hpq y).symm]

theorem navigate_delivers {c : Comparison E} (stop dir : Bool) (e : E) {t : TNode E}
    (hs : c.Increasing t.inorder) :
    Delivers (toward c dir) (Admits (toward c dir) stop e) t.inorder
      (deliver (navigate c.cmp e stop dir t null)) := by
  have hafter : CandidateAfter (toward c dir) null t.inorder := fun y hy => by cases hy
  rcases navigate_spec stop dir e hs hafter with ⟨y, hy, hleast⟩ | ⟨hnull, hnone⟩
  · exact Or.inl ⟨y, deliver_of_element hy, hleast⟩
  · exact Or.inr ⟨by rw [hnull]; rfl, hnone⟩

theorem tsFirst_delivers {c : Comparison E} {ts : TreeSet E} (hs : c.Increasing ts.root.inorder) :
    Delivers c (fun _ => True) ts.root.inorder (tsFirst ts) := by
  cases hn : ts.root.isNull with
  | true =>
    rw [tsFirst, height_of_isNull hn]
    exact Or.inr ⟨rfl, by simp⟩
  | false =>
    obtain ⟨xs, x, b, r, hmin, hin⟩ := findMin_head hn
    rw [hin] at hs ⊢
    refine Or.inl ⟨x, by rw [tsFirst, hmin]; rfl, by simp, trivial, fun z hz _ => ?_⟩
    rcases List.mem_cons.mp hz with rfl | hz
    · exact (c.cmp_self z).le
    · exact (List.pairwise_cons.mp hs).1 z hz |>.le

theorem tsLast_delivers {c : Comparison E} {ts : TreeSet E} (hs : c.Increasing ts.root.inorder) :
    Delivers c.flip (fun _ => True) ts.root.inorder (tsLast ts) := by
  cases hn : ts.root.isNull with
  | true =>
    rw [tsLast, height_of_isNull hn]
    exact Or.inr ⟨rfl, by simp⟩
  | false =>
    obtain ⟨xs, l, x, b, hmax, hin⟩ := findMax_last hn
    rw [hin] at hs ⊢
    refine Or.inl ⟨x, by rw [tsLast, hmax]; rfl, by simp, trivial, fun z hz _ => ?_⟩
    obtain ⟨_, _, hlx, _⟩ := c.increasing_append_cons.mp hs
    rcases List.mem_append.mp hz with hz | hz
    · exact (hlx z hz).le
    · rw [List.mem_singleton.mp hz, Comparison.flip_cmp, c.cmp_self]

theorem Delivers.status_eq_zero {c : Comparison E} {xs : List E} {res : ℤ × Option E}
    (h : Delivers c (fun _ => True) xs res) : res.1 = 0 ↔ xs = [] := by
  rcases h with ⟨y, rfl, hleast⟩ | ⟨rfl, hnone⟩
  · have hne : xs ≠ [] := List.ne_nil_of_mem hleast.mem
    simp [hne]
  · simp only [true_iff]
    exact List.eq_nil_iff_forall_not_mem.mpr fun y hy => hnone y hy trivial

/-- What the header promises of the six functions on a set with the elements `xs`; the greatest
element of an order is the least one of its opposite. -/
structure Navigates (c : Comparison E) (ts : TreeSet E) (e : E) (xs : List E) : Prop where
  ceiling : Delivers c (fun y => c.cmp e y ≤ 0) xs (tsCeiling ts e)
  floor : Delivers c.flip (fun y => c.cmp y e ≤ 0) xs (tsFloor ts e)
  higher : Delivers c (fun y => c.cmp e y < 0) xs (tsHigher ts e)
  lower : Delivers c.flip (fun y => c.cmp y e < 0) xs (tsLower ts e)
  first : Delivers c (fun _ => True) xs (tsFirst ts)
  last : Delivers c.flip (fun _ => True) xs (tsLast ts)
  first_empty : (tsFirst ts).1 = 0 ↔ xs = []
  last_empty : (tsLast ts).1 = 0 ↔ xs = []

theorem admits_stop {c : Comparison E} {e y : E} : Admits c true e y ↔ c.cmp e y ≤ 0 := by
  simp only [Admits, true_and]
  omega

theorem admits_strict {c : Comparison E} {e y : E} : Admits c false e y ↔ c.cmp e y < 0 := by
  simp [Admits]

/-- On every binary search tree the searches find what their names say, whether or not the element
asked for is stored. -/
theorem navigation_correct (c : Comparison E) (ts : TreeSet E) (hcmp : ts.cmp = c.cmp)
    (hs : c.Increasing ts.root.inorder) (e : E) : Navigates c ts e ts.root.inorder where
  ceiling := by
    rw [tsCeiling, hcmp]
    exact (navigate_delivers true false e hs).congr fun _ => admits_stop
  floor := by
    rw [tsFloor, hcmp]
    exact (navigate_delivers true true e hs).congr fun _ => admits_stop
  higher := by
    rw [tsHigher, hcmp]
    exact (navigate_delivers false false e hs).congr fun _ => admits_strict
  lower := by
    rw [tsLower, hcmp]
    exact (navigate_delivers false true e hs).congr fun _ => admits_strict
  first := tsFirst_delivers hs
  last := tsLast_delivers hs
  first_empty := (tsFirst_delivers hs).status_eq_zero
  last_empty := (tsLast_delivers hs).status_eq_zero

theorem navigation_correct_two :
    Navigates intComparison ⟨2, node (node null 1 0 null) 3 (-1) null, intComparison.cmp⟩ 2 [1, 3] :=
  navigation_correct intComparison _ rfl (by simp [Comparison.Increasing, intComparison]) 2

end CIS415.TreeSet
