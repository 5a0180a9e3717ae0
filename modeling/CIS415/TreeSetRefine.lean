import CIS415.TreeSetHeap
import CIS415.TreeSetSpec

/-!
# The nodes on the heap are the tree

Each function on the heap, run on the nodes of a tree, makes of them the nodes of the tree that the
function on trees gives. Nothing outside these nodes changes, a node is allocated only for a new element,
and the node that leaves the tree is freed.
-/

namespace CIS415

open Pointer TreeSetHeap

variable {E : Type}

def TNode.shape : TNode E → BinaryTree (Content E)
  | .null => .nil
  | .node l x b r => .node ⟨x, b⟩ l.shape r.shape

namespace TreeSetHeap

open TreeSet OrderedList

variable {h h₁ : Nodes E} {p q : Option Addr} {a : Addr} {c : Cell E} {as : List Addr} {dir : Bool}
  {d e f : Content E} {l m r s x y : BinaryTree (Content E)}

theorem singleRotate_spec (ht : Rep h p (branch (!dir) e (branch dir d m l) r) as) :
    ∃ p' h', singleRotate h p dir = some (p', h') ∧
      Makes h as h' p' (branch dir d (branch (!dir) e m r) l) := by
  obtain ⟨a, ca, xs, rs, rfl, ha, rfl, hx, hr, hparts⟩ := ht.split
  obtain ⟨b, cb, ms, ls, hb', hb, rfl, hm, hl, hparts'⟩ := hx.split
  rw [Bool.not_not] at hr
  have hab : a ≠ b := fun heq => hparts.left ((hparts'.mem a).mpr (Or.inl heq))
  obtain ⟨h₁, hup₁, hload₁, -⟩ := Heap.update_spec ha (TreeCell.setLink (!dir) (cb.link dir))
  have hb₁ : h₁.load b = some cb := by
    rw [hload₁, Function.update_of_ne hab.symm, hb]
  obtain ⟨h₂, hup₂, hload₂, -⟩ := Heap.update_spec hb₁ (TreeCell.setLink dir (some a))
  have hrot : singleRotate h (some a) dir = some (some b, h₂) := by
    simp only [singleRotate, Heap.deref_some ha, hb', Heap.deref_some hb, Option.bind_eq_bind,
      Option.bind_some, hup₁, hup₂]
  have ha₂ : h₂.load a = some (ca.setLink (!dir) (cb.link dir)) := by
    rw [hload₂, Function.update_of_ne hab, hload₁, Function.update_self]
  have hb₂ : h₂.load b = some (cb.setLink dir (some a)) := by
    rw [hload₂, Function.update_self]
  have hother : ∀ c, c ≠ a → c ≠ b → h₂.load c = h.load c := by
    intro c hca hcb
    rw [hload₂, Function.update_of_ne hcb, hload₁, Function.update_of_ne hca]
  have hms : ∀ c ∈ ms, c ∈ xs := fun c hc => (hparts'.mem c).mpr (Or.inr (Or.inl hc))
  have hls : ∀ c ∈ ls, c ∈ xs := fun c hc => (hparts'.mem c).mpr (Or.inr (Or.inr hc))
  have hne : ∀ {zs : List Addr} {z : Addr}, z ∉ zs → ∀ c ∈ zs, c ≠ z :=
    fun hz c hc heq => hz (heq ▸ hc)
  have hax : ∀ c ∈ xs, c ≠ a := hne hparts.left
  have hbr : b ∉ rs := hparts.apart b ((hparts'.mem b).mpr (Or.inl rfl))
  have hm₂ : Rep h₂ ((ca.setLink (!dir) (cb.link dir)).link (!dir)) m ms := by
    rw [TreeCell.link_setLink]
    exact hm.frame fun c hc => hother c (hax c (hms c hc)) (hne hparts'.left c hc)
  have hr₂ : Rep h₂ ((ca.setLink (!dir) (cb.link dir)).link (!(!dir))) r rs := by
    rw [TreeCell.link_setLink_not, Bool.not_not]
    exact hr.frame fun c hc => hother c (hne hparts.right c hc) (hne hbr c hc)
  obtain ⟨zs, hroot, hzs⟩ := Rep.join (!dir) ha₂ hm₂ hr₂ (fun hmem => hparts.left (hms a hmem))
    hparts.right fun c hc => hparts.apart c (hms c hc)
  rw [TreeCell.data_setLink] at hroot
  have hroot₂ : Rep h₂ ((cb.setLink dir (some a)).link dir) (branch (!dir) ca.data m r) zs := by
    rwa [TreeCell.link_setLink]
  have hl₂ : Rep h₂ ((cb.setLink dir (some a)).link (!dir)) l ls := by
    rw [TreeCell.link_setLink_not]
    exact hl.frame fun c hc => hother c (hax c (hls c hc)) (hne hparts'.right c hc)
  have hbz : b ∉ zs := by
    rw [hzs, not_or, not_or]
    exact ⟨hab.symm, hparts'.left, hbr⟩
  have hzl : ∀ c ∈ zs, c ∉ ls := by
    intro c hc hcl
    rcases (hzs c).mp hc with rfl | hcm | hcr
    · exact hparts.left (hls c hcl)
    · exact hparts'.apart c hcm hcl
    · exact hparts.apart c (hls c hcl) hcr
  obtain ⟨as', hr', hmem⟩ := Rep.join dir hb₂ hroot₂ hl₂ hbz hparts'.right hzl
  rw [TreeCell.data_setLink] at hr'
  refine ⟨_, _, hrot, as', hr', Change.of_outside (fun c => ?_) fun c hc => ?_⟩
  · rw [hmem, hzs, hparts.mem, hparts'.mem]
    tauto
  · rw [hparts.mem, hparts'.mem] at hc
    exact hother c (fun heq => hc (Or.inl heq)) fun heq => hc (Or.inr (Or.inl (Or.inl heq)))

theorem doubleRotate_eq {a b : Addr} {c : Cell E} (ha : h.load a = some c)
    (hb : c.link (!dir) = some b) (hab : a ≠ b) :
    doubleRotate h (some a) dir = (singleRotate h (some b) (!dir)).bind fun r =>
      (r.2.update (some a) (TreeCell.setLink (!dir) r.1)).bind fun h => singleRotate h (some a) dir := by
  simp only [doubleRotate, singleRotate, Heap.deref_some ha, hb, Bool.not_not, Option.bind_eq_bind,
    Option.bind_some, Option.bind_assoc]
  refine Option.bind_congr fun cb _ => Option.bind_congr fun cs _ => Option.bind_congr fun h₁ hup => ?_
  -- the link of the root has not changed when it is read again
  have ha₁ : h₁.load a = some c := (Heap.load_update_of_ne hup hab).trans ha
  simp only [Heap.deref_some ha₁, hb, Option.bind_some]

theorem doubleRotate_spec
    (ht : Rep h p (branch (!dir) e (branch dir d (branch (!dir) f x y) l) r) as) :
    ∃ p' h', doubleRotate h p dir = some (p', h') ∧
      Makes h as h' p' (branch dir f (branch (!dir) e y r) (branch dir d x l)) := by
  obtain ⟨a, c, _, _, rfl, ha, -, hn, -, hparts⟩ := ht.split
  obtain ⟨b, _, _, _, hb, -, -, -, -, hparts'⟩ := hn.split
  have hab : a ≠ b := fun heq => hparts.left ((hparts'.mem a).mpr (Or.inl heq))
  obtain ⟨xs, hx, hset⟩ := ht.setLink ha
  have hx' : Rep h (c.link (!dir)) (branch (!(!dir)) d (branch (!dir) f x y) l) xs := by
    rwa [Bool.not_not]
  obtain ⟨q, h₁, hrot, hmakes⟩ := singleRotate_spec hx'
  rw [Bool.not_not, branch_not dir f] at hmakes
  obtain ⟨h₂, hup, -, bs, hbs, hchange⟩ := hset h₁ q _ hmakes
  obtain ⟨p', h₃, hrot', cs, hcs, hchange'⟩ := singleRotate_spec hbs
  refine ⟨p', h₃, ?_, cs, hcs, hchange.trans hchange'⟩
  rw [hb] at hrot
  rw [doubleRotate_eq ha hb hab, hrot, Option.bind_some, hup, Option.bind_some, hrot']

theorem setBalance_spec (ht : Rep h (some a) (branch dir d x y) as) (hc : h.load a = some c) (v : ℤ) :
    ∃ h', h.update (some a) (setBalance v) = some h' ∧ h'.load a = some (setBalance v c) ∧
      Makes h as h' (some a) (branch dir ⟨d.element, v⟩ x y) := by
  obtain ⟨_, _, _, _, heq, ha, hd, -⟩ := ht.split
  obtain rfl := Option.some.inj heq
  obtain rfl := Option.some.inj (hc.symm.trans ha)
  obtain ⟨h', hup, hload, hmakes⟩ := ht.setData dir hc ⟨c.data.element, v⟩
  refine ⟨h', ?_, hload, hd ▸ hmakes⟩
  rw [← hup, Heap.update, Heap.update, Option.bind_eq_bind, Option.bind_some, Option.bind_some, hc]
  rfl

theorem link_setBalance (v : ℤ) (c : Cell E) (dir : Bool) : (setBalance v c).link dir = c.link dir := by
  cases dir <;> rfl

theorem setBalance_child {s : Bool} {b : Addr} {cb : Cell E}
    (ht : Rep h (some a) (branch dir e (branch s d x y) r) as) (hc : h.load a = some c)
    (hb : c.link dir = some b) (hcb : h.load b = some cb) (v : ℤ) :
    ∃ h', h.update (some b) (setBalance v) = some h' ∧ h'.load a = some c ∧
      h'.load b = some (setBalance v cb) ∧
      Makes h as h' (some a) (branch dir e (branch s ⟨d.element, v⟩ x y) r) := by
  obtain ⟨xs, hx, hinside⟩ := ht.inside hc
  rw [hb] at hx hinside
  obtain ⟨h', hup, hb', hmakes⟩ := setBalance_spec hx hcb v
  obtain ⟨ha, hmakes'⟩ := hinside h' _ hmakes
  exact ⟨h', hup, ha, hb', hmakes'⟩

theorem setBalance_grandchild {s u : Bool} {b : Addr} {cb : Cell E}
    (ht : Rep h (some a) (branch dir e (branch s d (branch u f x y) l) r) as) (hc : h.load a = some c)
    (hb : c.link dir = some b) (hcb : h.load b = some cb) (v : ℤ) :
    ∃ h', h.update (cb.link s) (setBalance v) = some h' ∧
      Makes h as h' (some a) (branch dir e (branch s d (branch u ⟨f.element, v⟩ x y) l) r) := by
  obtain ⟨xs, hx, hinside⟩ := ht.inside hc
  rw [hb] at hx hinside
  obtain ⟨ys, hy, -⟩ := hx.inside hcb
  obtain ⟨g, cg, _, _, hg, hcg, -⟩ := hy.split
  obtain ⟨h', hup, -, -, hmakes⟩ := setBalance_child hx hcb hg hcg v
  rw [hg]
  exact ⟨h', hup, (hinside h' _ hmakes).2⟩

theorem adjustBalance_spec {u : Bool} (bal : ℤ)
    (ht : Rep h (some a) (branch dir e (branch (!dir) d (branch u f x y) l) r) as) :
    ∃ h', adjustBalance h (some a) dir bal = some h' ∧
      Makes h as h' (some a) (branch dir ⟨e.element, (adjusted f.balance bal).1⟩
        (branch (!dir) ⟨d.element, (adjusted f.balance bal).2⟩
          (branch u ⟨f.element, 0⟩ x y) l) r) := by
  obtain ⟨_, c, _, _, heq, ha, -, hn, -, hparts⟩ := ht.split
  obtain rfl := Option.some.inj heq
  obtain ⟨b, cb, _, _, hb, hcb, -, hnn, -, hparts'⟩ := hn.split
  obtain ⟨g, cg, _, _, hg, hcg, hf, -⟩ := hnn.split
  have hab : b ≠ a := fun heq => hparts.left ((hparts'.mem a).mpr (Or.inl heq.symm))
  obtain ⟨h₁, hup₁, ha₁, hb₁, as₁, ht₁, hch₁⟩ :=
    setBalance_child ht ha hb hcb (adjusted f.balance bal).2
  obtain ⟨h₂, hup₂, ha₂, as₂, ht₂, hch₂⟩ := setBalance_spec ht₁ ha₁ (adjusted f.balance bal).1
  have hb₂ : h₂.load b = some (setBalance (adjusted f.balance bal).2 cb) :=
    (Heap.load_update_of_ne hup₂ hab).trans hb₁
  have hlink := link_setBalance (adjusted f.balance bal).1 c dir
  obtain ⟨h₃, hup₃, as₃, ht₃, hch₃⟩ := setBalance_grandchild ht₂ ha₂ (hlink.trans hb) hb₂ 0
  refine ⟨h₃, ?_, as₃, ht₃, hch₁.trans (hch₂.trans hch₃)⟩
  rw [link_setBalance, hg] at hup₃
  simp only [adjustBalance, Heap.deref_some ha, hb, Heap.deref_some hcb, hg, Heap.deref_some hcg,
    Option.bind_eq_bind, Option.bind_some, hf]
  change ((h.update (some b) (setBalance (adjusted f.balance bal).2)).bind fun h =>
    (h.update (some a) (setBalance (adjusted f.balance bal).1)).bind fun h =>
      h.update (some g) (setBalance 0)) = some h₃
  rw [hup₁, Option.bind_some, hup₂, Option.bind_some, hup₃]

theorem setBalance_both {s : Bool} {b : Addr} {cb : Cell E}
    (ht : Rep h (some a) (branch dir e (branch s d x y) r) as) (hc : h.load a = some c)
    (hb : c.link dir = some b) (hcb : h.load b = some cb) (v w : ℤ) :
    ∃ h₁ h₂, h.update (some b) (setBalance v) = some h₁ ∧ h₁.update (some a) (setBalance w) = some h₂ ∧
      Makes h as h₂ (some a) (branch dir ⟨e.element, w⟩ (branch s ⟨d.element, v⟩ x y) r) := by
  obtain ⟨h₁, hup₁, ha₁, -, as₁, ht₁, hch₁⟩ := setBalance_child ht hc hb hcb v
  obtain ⟨h₂, hup₂, -, as₂, ht₂, hch₂⟩ := setBalance_spec ht₁ ha₁ w
  exact ⟨h₁, h₂, hup₁, hup₂, as₂, ht₂, hch₁.trans hch₂⟩

theorem insertBalance_single (ht : Rep h p (branch dir e (branch (!dir) d m l) r) as)
    (hd : d.balance = sign dir) :
    ∃ p' h', insertBalance h p dir = some (p', h') ∧
      Makes h as h' p' (branch (!dir) ⟨d.element, 0⟩ (branch dir ⟨e.element, 0⟩ m r) l) := by
  obtain ⟨a, c, _, _, rfl, ha, -, hn, -, -⟩ := ht.split
  obtain ⟨b, cb, _, _, hb, hcb, hdb, -⟩ := hn.split
  obtain ⟨h₁, h₂, hup₁, hup₂, as₂, ht₂, hch₂⟩ := setBalance_both ht ha hb hcb 0 0
  rw [← Bool.not_not dir, Bool.not_not (!dir)] at ht₂
  obtain ⟨p', h', hrot, as', ht', hch'⟩ := singleRotate_spec ht₂
  rw [Bool.not_not] at ht'
  refine ⟨p', h', ?_, as', ht', hch₂.trans hch'⟩
  simp only [insertBalance, Heap.deref_some ha, hb, Heap.deref_some hcb, hdb, hd, Option.bind_eq_bind,
    Option.bind_some, if_true, hup₁, hup₂, hrot]

theorem insertBalance_double
    (ht : Rep h p (branch dir e (branch (!dir) d (branch dir f x y) l) r) as)
    (hd : d.balance ≠ sign dir) :
    ∃ p' h', insertBalance h p dir = some (p', h') ∧
      Makes h as h' p' (branch (!dir) ⟨f.element, 0⟩
        (branch dir ⟨e.element, (adjusted f.balance (sign dir)).1⟩ y r)
        (branch (!dir) ⟨d.element, (adjusted f.balance (sign dir)).2⟩ x l)) := by
  obtain ⟨a, c, _, _, rfl, ha, -, hn, -, -⟩ := ht.split
  obtain ⟨b, cb, _, _, hb, hcb, hdb, -⟩ := hn.split
  obtain ⟨h₁, hadj, as₁, ht₁, hch₁⟩ := adjustBalance_spec (sign dir) ht
  rw [← Bool.not_not dir, Bool.not_not (!dir)] at ht₁
  obtain ⟨p', h', hrot, as', ht', hch'⟩ := doubleRotate_spec ht₁
  rw [Bool.not_not] at ht'
  refine ⟨p', h', ?_, as', ht', hch₁.trans hch'⟩
  simp only [insertBalance, Heap.deref_some ha, hb, Heap.deref_some hcb, hdb, hd, Option.bind_eq_bind,
    Option.bind_some, if_false, hadj, hrot]

theorem removeBalance_single (ht : Rep h p (branch (!dir) e (branch dir d m l) r) as)
    (hd : d.balance = -sign dir) (done : Bool) :
    ∃ p' h', removeBalance h p dir done = some (p', done, h') ∧
      Makes h as h' p' (branch dir ⟨d.element, 0⟩ (branch (!dir) ⟨e.element, 0⟩ m r) l) := by
  obtain ⟨a, c, _, _, rfl, ha, -, hn, -, -⟩ := ht.split
  obtain ⟨b, cb, _, _, hb, hcb, hdb, -⟩ := hn.split
  obtain ⟨h₁, h₂, hup₁, hup₂, as₂, ht₂, hch₂⟩ := setBalance_both ht ha hb hcb 0 0
  obtain ⟨p', h', hrot, as', ht', hch'⟩ := singleRotate_spec ht₂
  refine ⟨p', h', ?_, as', ht', hch₂.trans hch'⟩
  simp only [removeBalance, Heap.deref_some ha, hb, Heap.deref_some hcb, hdb, hd, Option.bind_eq_bind,
    Option.bind_some, if_true, hup₁, hup₂, hrot]

theorem removeBalance_double
    (ht : Rep h p (branch (!dir) e (branch dir d (branch (!dir) f x y) l) r) as)
    (hd : d.balance = sign dir) (done : Bool) :
    ∃ p' h', removeBalance h p dir done = some (p', done, h') ∧
      Makes h as h' p' (branch dir ⟨f.element, 0⟩
        (branch (!dir) ⟨e.element, (adjusted f.balance (-sign dir)).1⟩ y r)
        (branch dir ⟨d.element, (adjusted f.balance (-sign dir)).2⟩ x l)) := by
  obtain ⟨a, c, _, _, rfl, ha, -, hn, -, -⟩ := ht.split
  obtain ⟨b, cb, _, _, hb, hcb, hdb, -⟩ := hn.split
  have hne : sign dir ≠ -sign dir := by
    cases dir <;> decide
  rw [← Bool.not_not dir, Bool.not_not (!dir)] at ht
  obtain ⟨h₁, hadj, as₁, ht₁, hch₁⟩ := adjustBalance_spec (-sign dir) ht
  rw [Bool.not_not] at ht₁
  obtain ⟨p', h', hrot, as', ht', hch'⟩ := doubleRotate_spec ht₁
  refine ⟨p', h', ?_, as', ht', hch₁.trans hch'⟩
  simp only [removeBalance, Heap.deref_some ha, hb, Heap.deref_some hcb, hdb, hd, Option.bind_eq_bind,
    Option.bind_some, if_neg hne, if_true, hadj, hrot]

theorem removeBalance_even (ht : Rep h p (branch (!dir) e (branch dir d m l) r) as)
    (hd : d.balance ≠ -sign dir) (hd' : d.balance ≠ sign dir) (done : Bool) :
    ∃ p' h', removeBalance h p dir done = some (p', true, h') ∧
      Makes h as h' p'
        (branch dir ⟨d.element, sign dir⟩ (branch (!dir) ⟨e.element, -sign dir⟩ m r) l) := by
  obtain ⟨a, c, _, _, rfl, ha, -, hn, -, hparts⟩ := ht.split
  obtain ⟨b, cb, _, _, hb, hcb, hdb, -, -, hparts'⟩ := hn.split
  have hab : b ≠ a := fun heq => hparts.left ((hparts'.mem a).mpr (Or.inl heq.symm))
  obtain ⟨h₁, hup₁, ha₁, as₁, ht₁, hch₁⟩ := setBalance_spec ht ha (-sign dir)
  have hb₁ : h₁.load b = some cb := (Heap.load_update_of_ne hup₁ hab).trans hcb
  have hlink := (link_setBalance (-sign dir) c (!dir)).trans hb
  obtain ⟨h₂, hup₂, -, -, as₂, ht₂, hch₂⟩ := setBalance_child ht₁ ha₁ hlink hb₁ (sign dir)
  obtain ⟨p', h', hrot, as', ht', hch'⟩ := singleRotate_spec ht₂
  refine ⟨p', h', ?_, as', ht', hch₁.trans (hch₂.trans hch')⟩
  simp only [removeBalance, Heap.deref_some ha, hb, Heap.deref_some hcb, hdb, if_neg hd, if_neg hd',
    Option.bind_eq_bind, Option.bind_some, hup₁, hup₂, hrot]

def fork (dir : Bool) (x : E) (b : ℤ) (u v : TNode E) : TNode E :=
  if dir then .node v x b u else .node u x b v

theorem node_eq_fork (dir : Bool) (l : TNode E) (b : ℤ) (r : TNode E) :
    ∃ u v, ∀ x, TNode.node l x b r = fork dir x b u v := by
  cases dir with
  | false => exact ⟨l, r, fun _ => rfl⟩
  | true => exact ⟨r, l, fun _ => rfl⟩

theorem height_lt_fork (dir : Bool) (x : E) (b : ℤ) (u v : TNode E) :
    u.height < (fork dir x b u v).height := by
  cases dir with
  | false => exact Nat.lt_succ_of_le (Nat.le_max_left ..)
  | true => exact Nat.lt_succ_of_le (Nat.le_max_right ..)

theorem shape_fork (dir : Bool) (x : E) (b : ℤ) (u v : TNode E) :
    (fork dir x b u v).shape = branch dir ⟨x, b⟩ u.shape v.shape := by
  cases dir <;> rfl

theorem eq_null_or_fork (dir : Bool) (t : TNode E) :
    t = .null ∨ ∃ x b u v, t = fork dir x b u v := by
  cases t with
  | null => exact Or.inl rfl
  | node l x b r =>
    cases dir with
    | false => exact Or.inr ⟨x, b, l, r, rfl⟩
    | true => exact Or.inr ⟨x, b, r, l, rfl⟩

section Pure

variable {x y z : E} {b q v : ℤ} {m l r u w : TNode E}

theorem insertBalance_fork_single (hq : q = sign dir) :
    TreeSet.insertBalance (fork dir x b (fork (!dir) y q m l) r) dir =
      some (fork (!dir) y 0 (fork dir x 0 m r) l) := by
  subst hq
  cases dir <;> rfl

theorem insertBalance_fork_null (hq : q ≠ sign dir) :
    TreeSet.insertBalance (fork dir x b (fork (!dir) y q .null l) r) dir = none := by
  cases dir <;> exact if_neg hq

theorem insertBalance_fork_double (hq : q ≠ sign dir) :
    TreeSet.insertBalance (fork dir x b (fork (!dir) y q (fork dir z v u w) l) r) dir =
      some (fork (!dir) z 0 (fork dir x (adjusted v (sign dir)).1 w r)
        (fork (!dir) y (adjusted v (sign dir)).2 u l)) := by
  cases dir <;> exact if_neg hq

theorem removeBalance_fork_single (hq : q = -sign dir) (done : Bool) :
    TreeSet.removeBalance (fork (!dir) x b (fork dir y q m l) r) dir done =
      some (fork dir y 0 (fork (!dir) x 0 m r) l, done) := by
  subst hq
  cases dir <;> rfl

theorem removeBalance_fork_null (hq : q = sign dir) (done : Bool) :
    TreeSet.removeBalance (fork (!dir) x b (fork dir y q .null l) r) dir done = none := by
  subst hq
  cases dir <;> rfl

theorem removeBalance_fork_double (hq : q = sign dir) (done : Bool) :
    TreeSet.removeBalance (fork (!dir) x b (fork dir y q (fork (!dir) z v u w) l) r) dir done =
      some (fork dir z 0 (fork (!dir) x (adjusted v (-sign dir)).1 w r)
        (fork dir y (adjusted v (-sign dir)).2 u l), done) := by
  subst hq
  cases dir <;> rfl

theorem removeBalance_fork_even (hq : q ≠ -sign dir) (hq' : q ≠ sign dir) (done : Bool) :
    TreeSet.removeBalance (fork (!dir) x b (fork dir y q m l) r) dir done =
      some (fork dir y (sign dir) (fork (!dir) x (-sign dir) m r) l, true) := by
  cases dir <;> exact (if_neg hq).trans (if_neg hq')

end Pure

theorem insertBalance_sim {t t' : TNode E} (ht : Rep h p t.shape as)
    (hpure : TreeSet.insertBalance t dir = some t') :
    ∃ p' h', insertBalance h p dir = some (p', h') ∧ Makes h as h' p' t'.shape := by
  rcases eq_null_or_fork dir t with rfl | ⟨x, b, n, r, rfl⟩
  · cases hpure
  rcases eq_null_or_fork (!dir) n with rfl | ⟨y, q, m, l, rfl⟩
  · cases dir <;> cases hpure
  by_cases hq : q = sign dir
  · rw [insertBalance_fork_single hq] at hpure
    obtain rfl := Option.some.inj hpure
    simp only [shape_fork] at ht ⊢
    exact insertBalance_single ht hq
  · rcases eq_null_or_fork dir m with rfl | ⟨z, v, u, w, rfl⟩
    · rw [insertBalance_fork_null hq] at hpure
      cases hpure
    · rw [insertBalance_fork_double hq] at hpure
      obtain rfl := Option.some.inj hpure
      simp only [shape_fork] at ht ⊢
      exact insertBalance_double ht hq

theorem removeBalance_sim {t t' : TNode E} {done done' : Bool} (ht : Rep h p t.shape as)
    (hpure : TreeSet.removeBalance t dir done = some (t', done')) :
    ∃ p' h', removeBalance h p dir done = some (p', done', h') ∧ Makes h as h' p' t'.shape := by
  rcases eq_null_or_fork (!dir) t with rfl | ⟨x, b, n, r, rfl⟩
  · cases hpure
  rcases eq_null_or_fork dir n with rfl | ⟨y, q, m, l, rfl⟩
  · cases dir <;> cases hpure
  by_cases hq : q = -sign dir
  · rw [removeBalance_fork_single hq] at hpure
    obtain ⟨rfl, rfl⟩ := Prod.mk.inj (Option.some.inj hpure)
    simp only [shape_fork] at ht ⊢
    exact removeBalance_single ht hq done
  by_cases hq' : q = sign dir
  · rcases eq_null_or_fork (!dir) m with rfl | ⟨z, v, u, w, rfl⟩
    · rw [removeBalance_fork_null hq'] at hpure
      cases hpure
    · rw [removeBalance_fork_double hq'] at hpure
      obtain ⟨rfl, rfl⟩ := Prod.mk.inj (Option.some.inj hpure)
      simp only [shape_fork] at ht ⊢
      exact removeBalance_double ht hq' done
  · rw [removeBalance_fork_even hq hq'] at hpure
    obtain ⟨rfl, rfl⟩ := Prod.mk.inj (Option.some.inj hpure)
    simp only [shape_fork] at ht ⊢
    exact removeBalance_even ht hq hq' done

theorem insertRetrace_fork {x : E} {b : ℤ} {u v : TNode E} {done : Bool} :
    TreeSet.insertRetrace (fork dir x b u v) dir done =
      if done then some (fork dir x b u v, done)
      else if b + sign dir = 0 then some (fork dir x (b + sign dir) u v, true)
      else if (b + sign dir).natAbs > 1 then
        (TreeSet.insertBalance (fork dir x (b + sign dir) u v) dir).bind fun t => some (t, true)
      else some (fork dir x (b + sign dir) u v, done) := by
  cases dir <;> rfl

theorem insertRetrace_sim {x : E} {b : ℤ} {u v t' : TNode E} {done done' : Bool}
    (ht : Rep h p (fork dir x b u v).shape as)
    (hpure : TreeSet.insertRetrace (fork dir x b u v) dir done = some (t', done')) :
    ∃ p' h', insertRetrace h p dir done = some (p', done', h') ∧ Makes h as h' p' t'.shape := by
  rw [insertRetrace_fork] at hpure
  rw [insertRetrace]
  by_cases hdone : done
  · rw [if_pos hdone] at hpure ⊢
    obtain ⟨rfl, rfl⟩ := Prod.mk.inj (Option.some.inj hpure)
    exact ⟨p, h, rfl, as, ht, .refl h as⟩
  rw [if_neg hdone] at hpure ⊢
  rw [shape_fork] at ht
  obtain ⟨a, c, _, _, rfl, ha, hc, -⟩ := ht.split
  obtain ⟨h₁, hup, -, as₁, ht₁, hch₁⟩ := setBalance_spec ht ha (b + sign dir)
  have hbal : c.data.balance = b := congrArg Content.balance hc
  simp only [Heap.deref_some ha, hbal, Option.bind_eq_bind, Option.bind_some, hup]
  by_cases hzero : b + sign dir = 0
  · rw [if_pos hzero] at hpure ⊢
    obtain ⟨rfl, rfl⟩ := Prod.mk.inj (Option.some.inj hpure)
    rw [shape_fork]
    exact ⟨_, _, rfl, as₁, ht₁, hch₁⟩
  rw [if_neg hzero] at hpure ⊢
  by_cases hbig : (b + sign dir).natAbs > 1
  · rw [if_pos hbig] at hpure ⊢
    obtain ⟨t, hins, heq⟩ := Option.bind_eq_some_iff.mp hpure
    obtain ⟨rfl, rfl⟩ := Prod.mk.inj (Option.some.inj heq)
    rw [← shape_fork] at ht₁
    obtain ⟨p', h', hrot, as', ht', hch'⟩ := insertBalance_sim ht₁ hins
    rw [hrot]
    exact ⟨p', h', rfl, as', ht', hch₁.trans hch'⟩
  · rw [if_neg hbig] at hpure ⊢
    obtain ⟨rfl, rfl⟩ := Prod.mk.inj (Option.some.inj hpure)
    rw [shape_fork]
    exact ⟨_, _, rfl, as₁, ht₁, hch₁⟩

theorem removeRetrace_fork {x : E} {b : ℤ} {u v : TNode E} {done : Bool} :
    TreeSet.removeRetrace (fork dir x b u v) dir done =
      if done then some (fork dir x b u v, done)
      else if (b - sign dir).natAbs = 1 then some (fork dir x (b - sign dir) u v, true)
      else if (b - sign dir).natAbs > 1 then
        TreeSet.removeBalance (fork dir x (b - sign dir) u v) dir done
      else some (fork dir x (b - sign dir) u v, done) := by
  cases dir <;> rfl

theorem removeRetrace_sim {x : E} {b : ℤ} {u v t' : TNode E} {done done' : Bool}
    (ht : Rep h p (fork dir x b u v).shape as)
    (hpure : TreeSet.removeRetrace (fork dir x b u v) dir done = some (t', done')) :
    ∃ p' h', removeRetrace h p dir done = some (p', done', h') ∧ Makes h as h' p' t'.shape := by
  rw [removeRetrace_fork] at hpure
  rw [removeRetrace]
  by_cases hdone : done
  · rw [if_pos hdone] at hpure ⊢
    obtain ⟨rfl, rfl⟩ := Prod.mk.inj (Option.some.inj hpure)
    exact ⟨p, h, rfl, as, ht, .refl h as⟩
  rw [if_neg hdone] at hpure ⊢
  rw [shape_fork] at ht
  obtain ⟨a, c, _, _, rfl, ha, hc, -⟩ := ht.split
  obtain ⟨h₁, hup, -, as₁, ht₁, hch₁⟩ := setBalance_spec ht ha (b - sign dir)
  have hbal : c.data.balance = b := congrArg Content.balance hc
  simp only [Heap.deref_some ha, hbal, Option.bind_eq_bind, Option.bind_some, hup]
  by_cases hone : (b - sign dir).natAbs = 1
  · rw [if_pos hone] at hpure ⊢
    obtain ⟨rfl, rfl⟩ := Prod.mk.inj (Option.some.inj hpure)
    rw [shape_fork]
    exact ⟨_, _, rfl, as₁, ht₁, hch₁⟩
  rw [if_neg hone] at hpure ⊢
  by_cases hbig : (b - sign dir).natAbs > 1
  · rw [if_pos hbig] at hpure ⊢
    rw [← shape_fork] at ht₁
    obtain ⟨p', h', hrot, as', ht', hch'⟩ := removeBalance_sim ht₁ hpure
    exact ⟨p', h', hrot, as', ht', hch₁.trans hch'⟩
  · rw [if_neg hbig] at hpure ⊢
    obtain ⟨rfl, rfl⟩ := Prod.mk.inj (Option.some.inj hpure)
    rw [shape_fork]
    exact ⟨_, _, rfl, as₁, ht₁, hch₁⟩

variable {cmp : E → E → ℤ} {alloc uf : Bool} {el : E} {done done' : Bool} {fuel : ℕ} {t t' : TNode E}

theorem insert_fork {x : E} {b : ℤ} {u v : TNode E} (hdir : decide (cmp x el < 0) = dir) :
    TreeSet.insert cmp alloc el (fork dir x b u v) done =
      (TreeSet.insert cmp alloc el u done).bind fun r =>
        TreeSet.insertRetrace (fork dir x b r.1 v) dir r.2 := by
  cases dir with
  | false => exact if_neg (of_decide_eq_false hdir)
  | true => exact if_pos (of_decide_eq_true hdir)

theorem newNode_sim (h : Nodes E) (alloc : Bool) (el : E) :
    Makes h [] (newNode alloc h el).2 (newNode alloc h el).1 (TreeSet.newNode alloc el).shape := by
  cases alloc with
  | false => exact ⟨[], rep_nil.mpr ⟨rfl, rfl⟩, .refl h []⟩
  | true => exact makes_malloc h ⟨el, 0⟩

theorem insert_sim (ht : Rep h p t.shape as) (hfuel : t.height < fuel)
    (hpure : TreeSet.insert cmp alloc el t done = some (t', done')) :
    ∃ p' h', insert cmp alloc el fuel h p done = some (p', done', h') ∧ Makes h as h' p' t'.shape := by
  induction fuel generalizing h p t t' as done' with
  | zero => cases hfuel
  | succ fuel ih =>
    cases t with
    | null =>
      obtain ⟨rfl, rfl⟩ := rep_nil.mp ht
      obtain ⟨rfl, rfl⟩ := Prod.mk.inj (Option.some.inj hpure)
      exact ⟨_, _, rfl, newNode_sim h alloc el⟩
    | node l x b r =>
      obtain ⟨u, v, heq⟩ := node_eq_fork (decide (cmp x el < 0)) l b r
      rw [heq x] at ht hfuel hpure
      rw [insert_fork rfl] at hpure
      obtain ⟨⟨sub, done₁⟩, hsub, hretrace⟩ := Option.bind_eq_some_iff.mp hpure
      have hlt := height_lt_fork (decide (cmp x el < 0)) x b u v
      rw [shape_fork] at ht
      obtain ⟨a, c, _, _, rfl, ha, hc, -⟩ := ht.split
      obtain ⟨xs, hx, hset⟩ := ht.setLink ha
      obtain ⟨q, h₁, hins, hmakes⟩ := ih hx (by omega) hsub
      obtain ⟨h₂, hup, -, as₂, ht₂, hch₂⟩ := hset h₁ q _ hmakes
      rw [← shape_fork] at ht₂
      obtain ⟨p', h', hret, as', ht', hch'⟩ := insertRetrace_sim ht₂ hretrace
      refine ⟨p', h', ?_, as', ht', hch₂.trans hch'⟩
      have hx' : c.data.element = x := congrArg Content.element hc
      rw [insert]
      simp only [ha, hx', Option.bind_eq_bind, Option.bind_some, hins, hup, hret]

theorem find_sim (cmp : E → E → ℤ) (el : E) (ht : Rep h p t.shape as) (hfuel : t.height < fuel) :
    ∃ q, find cmp el fuel h p = some q ∧ (q = none ↔ (TreeSet.find cmp el t).isNull = true) := by
  induction fuel generalizing p t as with
  | zero => cases hfuel
  | succ fuel ih =>
    cases t with
    | null =>
      obtain ⟨rfl, rfl⟩ := rep_nil.mp ht
      exact ⟨none, rfl, iff_of_true rfl rfl⟩
    | node l x b r =>
      obtain ⟨a, pl, pr, ls, rs, rfl, -, ha, hl, hr, -⟩ := ht.node
      have hll : l.height < fuel := by
        rw [TNode.height_node] at hfuel
        omega
      have hrl : r.height < fuel := by
        rw [TNode.height_node] at hfuel
        omega
      rw [find, TreeSet.find, ha, Option.bind_eq_bind, Option.bind_some]
      dsimp only
      split
      · exact ih hl hll
      · split
        · exact ih hr hrl
        · exact ⟨some a, rfl, iff_of_false (fun heq => by cases heq) Bool.false_ne_true⟩

theorem shape_eq_nil : t.shape = .nil ↔ t.isNull = true := by
  cases t with
  | null => exact iff_of_true rfl rfl
  | node l x b r => exact iff_of_false (fun heq => by cases heq) Bool.false_ne_true

def endNode (dir : Bool) (t : TNode E) : TNode E :=
  if dir then TreeSet.findMax t else TreeSet.findMin t

theorem endNode_fork (dir : Bool) (x : E) (b : ℤ) (u v : TNode E) :
    endNode dir (fork dir x b u v) = if u.isNull then fork dir x b u v else endNode dir u := by
  cases dir <;> rfl

theorem findEnd_sim (dir : Bool) (ht : Rep h p t.shape as) (hfuel : t.height ≤ fuel) :
    ∃ q, findEnd dir fuel h p = some q ∧ (q = none ↔ endNode dir t = .null) ∧
      (h.deref q).map (·.data.element) = (endNode dir t).element := by
  induction fuel generalizing p t as with
  | zero =>
    cases t with
    | null =>
      obtain ⟨rfl, rfl⟩ := rep_nil.mp ht
      cases dir <;> exact ⟨none, rfl, iff_of_true rfl rfl, rfl⟩
    | node l x b r => cases hfuel
  | succ fuel ih =>
    rcases eq_null_or_fork dir t with rfl | ⟨x, b, u, v, rfl⟩
    · obtain ⟨rfl, rfl⟩ := rep_nil.mp ht
      cases dir <;> exact ⟨none, rfl, iff_of_true rfl rfl, rfl⟩
    · have hlt := height_lt_fork dir x b u v
      rw [shape_fork] at ht
      obtain ⟨a, c, _, _, rfl, ha, hc, hx, -⟩ := ht.split
      rw [findEnd, ha, Option.bind_eq_bind, Option.bind_some, endNode_fork]
      by_cases hnull : u.isNull = true
      · rw [if_pos hnull, if_pos (hx.eq_none_iff.mpr (shape_eq_nil.mpr hnull))]
        refine ⟨some a, rfl, iff_of_false (fun heq => by cases heq) ?_, ?_⟩
        · cases dir <;> exact fun heq => by cases heq
        · rw [Heap.deref_some ha]
          cases dir <;> exact congrArg (fun d => some d.element) hc
      · rw [if_neg hnull, if_neg fun heq => hnull (shape_eq_nil.mp (hx.eq_none_iff.mp heq))]
        exact ih hx (by omega)

/-- A node with a free link is replaced by its other subtree. -/
theorem remove_node {l r : TNode E} {x : E} {b : ℤ}
    (ht : Rep h (some a) (TNode.node l x b r).shape as) (hc : h.load a = some c)
    (hfree : l.isNull = true ∨ r.isNull = true) :
    ∃ h', h.free a = some h' ∧ Makes h as h' (c.link (decide (c.link0 = none)))
      (if l.isNull then r else l).shape := by
  obtain ⟨_, pl, pr, _, _, heq, -, ha, hl, hr, -⟩ := ht.node
  obtain rfl := Option.some.inj heq
  obtain rfl := Option.some.inj (hc.symm.trans ha)
  by_cases hnull : l.isNull = true
  · have hpl : pl = none := hl.eq_none_iff.mpr (shape_eq_nil.mpr hnull)
    have hdir : decide (pl = none) = true := decide_eq_true hpl
    rw [if_pos hnull, hdir]
    exact Rep.freeNode true ht hc hpl
  · have hpl : ¬ pl = none := fun heq => hnull (shape_eq_nil.mp (hl.eq_none_iff.mp heq))
    have hdir : decide (pl = none) = false := decide_eq_false hpl
    rw [if_neg hnull, hdir]
    exact Rep.freeNode false ht hc
      (hr.eq_none_iff.mpr (shape_eq_nil.mpr (hfree.resolve_left hnull)))

/-- The element of a node that is not freed and the element to be removed below it. -/
def matched (cmp : E → E → ℤ) (el x : E) (l : TNode E) : Option (E × E) :=
  if cmp el x = 0 then (TreeSet.findMax l).element.map fun y => (y, y) else some (x, el)

theorem remove_fork {l r : TNode E} {x x' el' : E} {b : ℤ} {u v : TNode E}
    (hcond : ¬ (cmp el x = 0 ∧ (l.isNull = true ∨ r.isNull = true)))
    (hmatched : matched cmp el x l = some (x', el')) (hdir : decide (cmp x' el' < 0) = dir)
    (heq : TNode.node l x b r = fork dir x b u v) :
    TreeSet.remove cmp uf (.node l x b r) el done =
      (TreeSet.remove cmp uf u el' done).bind fun s =>
        (TreeSet.removeRetrace (fork dir x' b s.1 v) dir s.2.1).bind fun t =>
          some (t.1, t.2, s.2.2) := by
  have hside : ∀ y z : E, decide (cmp y z < 0) = dir →
      (if cmp y z < 0 then
        (TreeSet.remove cmp uf r z done).bind fun s =>
          (TreeSet.removeRetrace (.node l y b s.1) true s.2.1).bind fun t => some (t.1, t.2, s.2.2)
      else
        (TreeSet.remove cmp uf l z done).bind fun s =>
          (TreeSet.removeRetrace (.node s.1 y b r) false s.2.1).bind fun t => some (t.1, t.2, s.2.2)) =
        (TreeSet.remove cmp uf u z done).bind fun s =>
          (TreeSet.removeRetrace (fork dir y b s.1 v) dir s.2.1).bind fun t =>
            some (t.1, t.2, s.2.2) := by
    intro y z hdir
    cases dir with
    | false =>
      obtain ⟨rfl, -, -, rfl⟩ := TNode.node.inj heq
      exact if_neg (of_decide_eq_false hdir)
    | true =>
      obtain ⟨rfl, -, -, rfl⟩ := TNode.node.inj heq
      exact if_pos (of_decide_eq_true hdir)
  rw [TreeSet.remove, if_neg hcond]
  rw [matched] at hmatched
  by_cases hx : cmp el x = 0
  · rw [if_pos hx] at hmatched ⊢
    obtain ⟨y, hy, hpair⟩ := Option.map_eq_some_iff.mp hmatched
    obtain ⟨rfl, rfl⟩ := Prod.mk.inj hpair
    rw [hy]
    exact hside _ _ hdir
  · rw [if_neg hx] at hmatched ⊢
    obtain ⟨rfl, rfl⟩ := Prod.mk.inj (Option.some.inj hmatched)
    exact hside _ _ hdir

theorem takeHeir_sim {l r : TNode E} {x : E} {b : ℤ}
    (ht : Rep h (some a) (TNode.node l x b r).shape as) (hc : h.load a = some c)
    (hfuel : l.height ≤ fuel) (hcond : ¬ (cmp el x = 0 ∧ (l.isNull = true ∨ r.isNull = true))) :
    ∃ x' el' h₁, matched cmp el x l = some (x', el') ∧ takeHeir cmp fuel h a el = some (h₁, el') ∧
      Makes h as h₁ (some a) (TNode.node l x' b r).shape := by
  obtain ⟨_, pl, pr, _, _, heq, -, ha, hl, hr, -⟩ := ht.node
  obtain rfl := Option.some.inj heq
  obtain rfl := Option.some.inj (hc.symm.trans ha)
  rw [matched, takeHeir, hc, Option.bind_eq_bind, Option.bind_some]
  by_cases hx : cmp el x = 0
  · have hln : l.isNull = false := by
      by_contra hln
      exact hcond ⟨hx, Or.inl (Bool.not_eq_false _ ▸ hln)⟩
    obtain ⟨xs, l', y, v, hmax, -⟩ := findMax_last hln
    have hy : (TreeSet.findMax l).element = some y := by
      rw [hmax]
      rfl
    obtain ⟨q, hq, -, hel⟩ := findEnd_sim true hl hfuel
    obtain ⟨heir, hheir, hel⟩ := Option.map_eq_some_iff.mp (hel.trans hy)
    obtain ⟨h₁, hup, -, hmakes⟩ := Rep.setData false ht hc ⟨y, b⟩
    have hup' : h.update (some a) (setElement y) = some h₁ := by
      rw [← hup, Heap.update, Heap.update, Option.bind_eq_bind, Option.bind_some, Option.bind_some, hc]
      rfl
    rw [if_pos hx, if_pos hx, hy]
    refine ⟨y, y, h₁, rfl, ?_, hmakes⟩
    simp only [findMax, hq, Option.bind_eq_bind, Option.bind_some, hheir, hel, hup']
  · rw [if_neg hx, if_neg hx]
    exact ⟨x, el, h, rfl, rfl, as, ht, .refl h as⟩

theorem remove_sim {calls : List E} (ht : Rep h p t.shape as) (hfuel : t.height < fuel)
    (hpure : TreeSet.remove cmp uf t el done = some (t', done', calls)) :
    ∃ p' h', remove cmp uf fuel h p el done = some (p', done', calls, h') ∧
      Makes h as h' p' t'.shape := by
  induction fuel generalizing h p t t' as el done' calls with
  | zero => cases hfuel
  | succ fuel ih =>
    cases t with
    | null =>
      obtain ⟨rfl, rfl⟩ := rep_nil.mp ht
      obtain ⟨rfl, heq⟩ := Prod.mk.inj (Option.some.inj hpure)
      obtain ⟨rfl, rfl⟩ := Prod.mk.inj heq
      exact ⟨none, h, rfl, [], ht, .refl h []⟩
    | node l x b r =>
      obtain ⟨a, pl, pr, _, _, rfl, -, ha, hl, hr, -⟩ := ht.node
      have hnull : (pl = none ∨ pr = none) ↔ (l.isNull = true ∨ r.isNull = true) := by
        rw [hl.eq_none_iff, hr.eq_none_iff, shape_eq_nil, shape_eq_nil]
      rw [TNode.height_node] at hfuel
      rw [remove, ha, Option.bind_eq_bind, Option.bind_some]
      by_cases hcond : cmp el x = 0 ∧ (l.isNull = true ∨ r.isNull = true)
      · obtain ⟨h', hfree, hmakes⟩ := remove_node ht ha hcond.2
        rw [TreeSet.remove, if_pos hcond] at hpure
        obtain ⟨rfl, heq⟩ := Prod.mk.inj (Option.some.inj hpure)
        obtain ⟨rfl, rfl⟩ := Prod.mk.inj heq
        rw [if_pos ⟨hcond.1, hnull.mpr hcond.2⟩, hfree]
        exact ⟨_, h', rfl, hmakes⟩
      · have hll : l.height ≤ fuel := by omega
        obtain ⟨x', el', h₁, hmatched, htake, as₁, ht₁, hch₁⟩ := takeHeir_sim ht ha hll hcond
        rw [if_neg fun hc => hcond ⟨hc.1, hnull.mp hc.2⟩, htake, Option.bind_eq_bind, Option.bind_some]
        obtain ⟨u, v, heq⟩ := node_eq_fork (decide (cmp x' el' < 0)) l b r
        have hlt := height_lt_fork (decide (cmp x' el' < 0)) x b u v
        rw [← heq x, TNode.height_node] at hlt
        rw [remove_fork hcond hmatched rfl (heq x)] at hpure
        obtain ⟨⟨sub, done₁, calls₁⟩, hsub, hpure⟩ := Option.bind_eq_some_iff.mp hpure
        obtain ⟨⟨root, done₂⟩, hretrace, hpair⟩ := Option.bind_eq_some_iff.mp hpure
        obtain ⟨rfl, hrest⟩ := Prod.mk.inj (Option.some.inj hpair)
        obtain ⟨rfl, rfl⟩ := Prod.mk.inj hrest
        rw [heq x', shape_fork] at ht₁
        obtain ⟨_, c, _, _, hroot, ha₁, hc, -⟩ := ht₁.split
        obtain rfl := Option.some.inj hroot
        have hx' : c.data.element = x' := congrArg Content.element hc
        obtain ⟨xs, hx, hset⟩ := ht₁.setLink ha₁
        obtain ⟨q, h₂, hrem, hmakes⟩ := ih hx (by omega) hsub
        obtain ⟨h₃, hup, -, as₃, ht₃, hch₃⟩ := hset h₂ q _ hmakes
        rw [← shape_fork] at ht₃
        obtain ⟨p', h', hret, as', ht', hch'⟩ := removeRetrace_sim ht₃ hretrace
        refine ⟨p', h', ?_, as', ht', hch₁.trans (hch₃.trans hch')⟩
        simp only [ha₁, hx', Option.bind_eq_bind, Option.bind_some, hrem, hup, hret]

theorem postpurge_sim (ht : Rep h p t.shape as) (hfuel : t.height < fuel) :
    ∃ h', postpurge uf fuel h p = some (TreeSet.postpurge uf t, h') ∧ Change h h' as [] := by
  induction fuel generalizing h p t as with
  | zero => cases hfuel
  | succ fuel ih =>
    cases t with
    | null =>
      obtain ⟨rfl, rfl⟩ := rep_nil.mp ht
      exact ⟨h, rfl, .refl h []⟩
    | node l x b r =>
      obtain ⟨a, pl, pr, ls, rs, rfl, rfl, ha, hl, hr, hal, har, hdis⟩ := ht.node
      rw [TNode.height_node] at hfuel
      obtain ⟨h₁, hpl, hch₁⟩ := ih hl (by omega)
      have hkeep₁ : ∀ b, b ∉ ls → h₁.load b = h.load b :=
        fun b hb => hch₁.outside b hb List.not_mem_nil
      have ha₁ := (hkeep₁ a hal).trans ha
      have hr₁ : Rep h₁ pr r.shape rs := hr.frame fun b hb => hkeep₁ b fun hmem => hdis b hmem hb
      obtain ⟨h₂, hpr, hch₂⟩ := ih hr₁ (by omega)
      have hkeep₂ : ∀ b, b ∉ rs → h₂.load b = h₁.load b :=
        fun b hb => hch₂.outside b hb List.not_mem_nil
      have ha₂ := (hkeep₂ a har).trans ha₁
      obtain ⟨h₃, hfree, hload, -⟩ := Heap.free_spec ha₂
      have hkeep₃ : ∀ b, b ≠ a → h₃.load b = h₂.load b := by
        intro b hb
        rw [hload, Function.update_of_ne hb]
      refine ⟨h₃, ?_, fun b hb _ => ?_, fun b hb _ => ?_, fun b hb => absurd hb List.not_mem_nil⟩
      · rw [postpurge]
        simp only [ha, Option.bind_eq_bind, Option.bind_some, hpl, ha₁, hpr, ha₂, hfree,
          TreeSet.postpurge]
      · rw [List.mem_append, List.mem_cons, not_or, not_or] at hb
        rw [hkeep₃ b hb.2.1, hkeep₂ b hb.2.2, hkeep₁ b hb.1]
      · by_cases hba : b = a
        · rw [hba, hload, Function.update_self]
        rw [hkeep₃ b hba]
        rcases List.mem_append.mp hb with hb | hb
        · rw [hkeep₂ b (hdis b hb)]
          exact hch₁.freed b hb List.not_mem_nil
        · exact hch₂.freed b ((List.mem_cons.mp hb).resolve_left hba) List.not_mem_nil

/-- The set on the heap is the set `ts`, and outside its nodes the heap is as it was in `h`. -/
structure Refines (h : Nodes E) (s : State E) (ts : TreeSet E) : Prop where
  size : s.size = ts.size
  cmp : s.cmp = ts.cmp
  nodes : Makes h [] s.nodes s.root ts.root.shape

theorem numNodes_shape (t : TNode E) : t.shape.numNodes = t.numNodes := by
  induction t with
  | null => rfl
  | node l x b r ihl ihr =>
    rw [TNode.shape, BinaryTree.numNodes, ihl, ihr, TNode.numNodes]

theorem height_le_numNodes (t : TNode E) : t.height ≤ t.numNodes := by
  induction t with
  | null => exact Nat.le_refl 0
  | node l x b r ihl ihr =>
    rw [TNode.height_node, TNode.numNodes]
    omega

theorem height_lt_fuel {s : State E} (ht : Rep s.nodes p t.shape as) : t.height < s.fuel := by
  have hle := ht.numNodes_le
  rw [numNodes_shape] at hle
  have hheight := height_le_numNodes t
  rw [State.fuel]
  omega

variable {st : State E} {ts ts' : TreeSet E}

theorem tsAdd_sim (hr : Refines h st ts) {v : ℤ} (hpure : TreeSet.tsAdd alloc ts el = some (v, ts')) :
    ∃ s', tsAdd alloc st el = some (v, s') ∧ Refines h s' ts' := by
  obtain ⟨hsize, hcmp, as, ht, hch⟩ := hr
  obtain ⟨q, hfind, hq⟩ := find_sim st.cmp el ht (height_lt_fuel ht)
  rw [hcmp] at hfind hq
  rw [TreeSet.tsAdd] at hpure
  by_cases hnull : (TreeSet.find ts.cmp el ts.root).isNull = true
  · rw [if_pos hnull] at hpure
    obtain ⟨⟨root, done⟩, hins, heq⟩ := Option.bind_eq_some_iff.mp hpure
    obtain ⟨rfl, rfl⟩ := Prod.mk.inj (Option.some.inj heq)
    obtain ⟨p', h', hins', as', ht', hch'⟩ := insert_sim ht (height_lt_fuel ht) hins
    refine ⟨{ st with nodes := h', root := p', size := st.size + 1 }, ?_, ?_⟩
    · simp only [tsAdd, hcmp, hfind, hq.mpr hnull, hins', Option.bind_eq_bind, Option.bind_some,
        ne_eq, not_true, if_false]
    · exact ⟨congrArg (· + 1) hsize, hcmp, as', ht', hch.trans hch'⟩
  · rw [if_neg hnull] at hpure
    obtain ⟨rfl, rfl⟩ := Prod.mk.inj (Option.some.inj hpure)
    refine ⟨st, ?_, hsize, hcmp, as, ht, hch⟩
    simp only [tsAdd, hcmp, hfind, mt hq.mp hnull, Option.bind_eq_bind, Option.bind_some, ne_eq,
      not_false_iff, if_true]

theorem tsContains_sim (hr : Refines h st ts) (el : E) :
    tsContains st el = some (TreeSet.tsContains ts el) := by
  obtain ⟨hsize, hcmp, as, ht, hch⟩ := hr
  obtain ⟨q, hfind, hq⟩ := find_sim st.cmp el ht (height_lt_fuel ht)
  rw [tsContains, hfind, TreeSet.tsContains, Option.bind_eq_bind, Option.bind_some, ← hcmp]
  by_cases hnull : (TreeSet.find st.cmp el ts.root).isNull = true
  · rw [if_pos hnull, hq.mpr hnull, if_neg fun hne => hne rfl]
  · rw [if_neg hnull, if_pos (mt hq.mp hnull)]

theorem tsClear_sim (hr : Refines h st ts) (uf : Bool) :
    ∃ s', tsClear st uf = some ((TreeSet.tsClear ts uf).1, s') ∧
      Refines h s' (TreeSet.tsClear ts uf).2 := by
  obtain ⟨hsize, hcmp, as, ht, hch⟩ := hr
  obtain ⟨h', hpurge, hch'⟩ := postpurge_sim ht (height_lt_fuel ht)
  refine ⟨{ st with nodes := h', root := none, size := 0 }, ?_, rfl, hcmp, [],
    rep_nil.mpr ⟨rfl, rfl⟩, hch.trans hch'⟩
  rw [tsClear, hpurge]
  rfl

theorem tsRemove_sim (hr : Refines h st ts) {v : ℤ} {calls : List E}
    (hpure : TreeSet.tsRemove ts el uf = some (v, calls, ts')) :
    ∃ s', tsRemove st el uf = some (v, calls, s') ∧ Refines h s' ts' := by
  obtain ⟨hsize, hcmp, as, ht, hch⟩ := hr
  obtain ⟨q, hfind, hq⟩ := find_sim st.cmp el ht (height_lt_fuel ht)
  rw [hcmp] at hfind hq
  rw [TreeSet.tsRemove] at hpure
  by_cases hnull : (TreeSet.find ts.cmp el ts.root).isNull = true
  · rw [if_pos hnull] at hpure
    obtain ⟨rfl, heq⟩ := Prod.mk.inj (Option.some.inj hpure)
    obtain ⟨rfl, rfl⟩ := Prod.mk.inj heq
    refine ⟨st, ?_, hsize, hcmp, as, ht, hch⟩
    simp only [tsRemove, hcmp, hfind, hq.mpr hnull, Option.bind_eq_bind, Option.bind_some, if_true]
  · rw [if_neg hnull] at hpure
    obtain ⟨⟨root, done, calls'⟩, hrem, heq⟩ := Option.bind_eq_some_iff.mp hpure
    obtain ⟨rfl, hrest⟩ := Prod.mk.inj (Option.some.inj heq)
    obtain ⟨rfl, rfl⟩ := Prod.mk.inj hrest
    obtain ⟨p', h', hrem', as', ht', hch'⟩ := remove_sim ht (height_lt_fuel ht) hrem
    refine ⟨{ st with nodes := h', root := p', size := st.size - 1 }, ?_, ?_⟩
    · simp only [tsRemove, hcmp, hfind, mt hq.mp hnull, if_false, hrem', Option.bind_eq_bind,
        Option.bind_some]
    · exact ⟨congrArg (· - 1) hsize, hcmp, as', ht', hch.trans hch'⟩

theorem poll_sim (dir : Bool) (hr : Refines h st ts) {v : ℤ} {e : Option E}
    (hpure : (match endNode dir ts.root with
      | .null => some (0, none, ts)
      | .node _ x _ _ => do
        let (root, _, _) ← TreeSet.remove ts.cmp false ts.root x false
        some (1, some x, { ts with root := root })) = some (v, e, ts')) :
    ∃ s', poll dir st = some (v, e, s') ∧ Refines h s' ts' := by
  obtain ⟨hsize, hcmp, as, ht, hch⟩ := hr
  obtain ⟨q, hend, hnone, hq⟩ := findEnd_sim dir ht (Nat.le_of_lt (height_lt_fuel ht))
  split at hpure
  · rename_i hnull
    obtain ⟨rfl, heq⟩ := Prod.mk.inj (Option.some.inj hpure)
    obtain ⟨rfl, rfl⟩ := Prod.mk.inj heq
    refine ⟨st, ?_, hsize, hcmp, as, ht, hch⟩
    simp only [poll, hend, hnone.mpr hnull, Option.bind_eq_bind, Option.bind_some, if_true]
  · rename_i l x b r hnode
    obtain ⟨⟨root, done, calls⟩, hrem, heq⟩ := Option.bind_eq_some_iff.mp hpure
    obtain ⟨rfl, hrest⟩ := Prod.mk.inj (Option.some.inj heq)
    obtain ⟨rfl, rfl⟩ := Prod.mk.inj hrest
    obtain ⟨p', h', hrem', as', ht', hch'⟩ := remove_sim ht (height_lt_fuel ht) hrem
    rw [hnode] at hq
    obtain ⟨c, hc, hx⟩ := Option.map_eq_some_iff.mp hq
    have hne : q ≠ none := by
      rintro rfl
      cases hc
    refine ⟨{ st with nodes := h', root := p' }, ?_, hsize, hcmp, as', ht', hch.trans hch'⟩
    simp only [poll, hend, if_neg hne, hc, hx, hcmp, hrem', Option.bind_eq_bind, Option.bind_some]

theorem step_sim (hr : Refines h st ts) {op : Op E} {ret : Ret E}
    (hpure : TreeSet.step ts op = some (ret, ts')) :
    ∃ s', step st op = some (ret, s') ∧ Refines h s' ts' := by
  cases op with
  | add e =>
    obtain ⟨⟨v, ts₁⟩, hadd, heq⟩ := Option.bind_eq_some_iff.mp hpure
    obtain ⟨rfl, rfl⟩ := Prod.mk.inj (Option.some.inj heq)
    obtain ⟨s', hadd', hr'⟩ := tsAdd_sim hr hadd
    exact ⟨s', by simp only [step, hadd', Option.bind_eq_bind, Option.bind_some], hr'⟩
  | remove e uf =>
    obtain ⟨⟨v, calls, ts₁⟩, hrem, heq⟩ := Option.bind_eq_some_iff.mp hpure
    obtain ⟨rfl, rfl⟩ := Prod.mk.inj (Option.some.inj heq)
    obtain ⟨s', hrem', hr'⟩ := tsRemove_sim hr hrem
    exact ⟨s', by simp only [step, hrem', Option.bind_eq_bind, Option.bind_some], hr'⟩
  | pollFirst =>
    obtain ⟨⟨v, e, ts₁⟩, hpoll, heq⟩ := Option.bind_eq_some_iff.mp hpure
    obtain ⟨rfl, rfl⟩ := Prod.mk.inj (Option.some.inj heq)
    obtain ⟨s', hpoll', hr'⟩ := poll_sim false hr hpoll
    exact ⟨s', by simp only [step, tsPollFirst, hpoll', Option.bind_eq_bind, Option.bind_some], hr'⟩
  | pollLast =>
    obtain ⟨⟨v, e, ts₁⟩, hpoll, heq⟩ := Option.bind_eq_some_iff.mp hpure
    obtain ⟨rfl, rfl⟩ := Prod.mk.inj (Option.some.inj heq)
    obtain ⟨s', hpoll', hr'⟩ := poll_sim true hr hpoll
    exact ⟨s', by simp only [step, tsPollLast, hpoll', Option.bind_eq_bind, Option.bind_some], hr'⟩
  | clear uf =>
    obtain ⟨rfl, rfl⟩ := Prod.mk.inj (Option.some.inj hpure)
    obtain ⟨s', hclear, hr'⟩ := tsClear_sim hr uf
    refine ⟨s', ?_, hr'⟩
    rw [step, hclear]
    rfl
  | contains e =>
    obtain ⟨rfl, rfl⟩ := Prod.mk.inj (Option.some.inj hpure)
    exact ⟨st, by simp only [step, tsContains_sim hr, Option.bind_eq_bind, Option.bind_some], hr⟩

theorem tsDestroy_sim (hr : Refines h st ts) (uf : Bool) :
    ∃ h', tsDestroy st uf = some (TreeSet.tsDestroy ts uf, h') ∧ h'.load = h.load := by
  obtain ⟨hsize, hcmp, as, ht, hch⟩ := hr
  obtain ⟨h', hpurge, hch'⟩ := postpurge_sim ht (height_lt_fuel ht)
  refine ⟨h', hpurge, ?_⟩
  funext b
  exact (hch.trans hch').outside b List.not_mem_nil List.not_mem_nil

/-- On any heap, and in any sequence of calls, the functions on the heap follow no NULL pointer and access
no freed node. Their results are those of the sorted finite set, their nodes are those of its tree and the
rest of the heap stays as it was; destroying the set leaves the heap as it was before the set was made. -/
theorem run_on_heap (c : Comparison E) (h : Nodes E) (ops : List (Op E)) :
    ∃ rets st ts as, run h c.cmp ops = some (rets, st) ∧
      rets.map (fun ret => (ret.value, ret.element)) = (Machine.specRun (setStep c) [] ops).1 ∧
      Rep st.nodes st.root ts.root.shape as ∧
      ts.root.inorder = (Machine.specRun (setStep c) [] ops).2 ∧
      (∀ b, b ∉ as → st.nodes.load b = h.load b) ∧
      ∀ uf, ∃ h', tsDestroy st uf = some (TreeSet.tsDestroy ts uf, h') ∧ h'.load = h.load := by
  obtain ⟨rets, ts, hrun, hrets, hrep⟩ := run_represents c ops
  have hinit : Refines h (tsCreate h c.cmp) (TreeSet.tsCreate c.cmp) :=
    ⟨rfl, rfl, [], rep_nil.mpr ⟨rfl, rfl⟩, .refl h []⟩
  obtain ⟨st, hrun', hr⟩ := Machine.run_follows (fun _ _ _ _ _ hr hs => step_sim hr hs) hinit hrun
  obtain ⟨as, ht, hch⟩ := hr.nodes
  exact ⟨rets, st, ts, as, hrun', hrets, ht, hrep.inorder,
    fun b hb => hch.outside b List.not_mem_nil hb, tsDestroy_sim hr⟩

end TreeSetHeap

end CIS415
