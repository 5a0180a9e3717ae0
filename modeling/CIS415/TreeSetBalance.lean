import CIS415.Lib.OrderedList
import CIS415.TreeSet
import Mathlib.Data.Nat.Fib.Basic

/-!
# Rebalancing keeps the tree an AVL tree

`Balanced` says that every balance field is the height difference of the two links and lies
between -1 and 1. The flag `done` of an insertion means that the height of the subtree did not
grow, and of a removal that it did not shrink; an insertion that grew its subtree moreover leaves
it leaning to one side, which is what rules out a third rotation case in `insertBalance`. The
in-order sequence is untouched by all of this.
-/

namespace CIS415

open OrderedList

variable {E : Type}

namespace TNode

def height : TNode E → ℕ
  | null => 0
  | node l _ _ r => max l.height r.height + 1

def inorder : TNode E → List E
  | null => []
  | node l x _ r => l.inorder ++ x :: r.inorder

def numNodes : TNode E → ℕ
  | null => 0
  | node l _ _ r => l.numNodes + r.numNodes + 1

def Balanced : TNode E → Prop
  | null => True
  | node l _ b r => b = (r.height : ℤ) - l.height ∧ -1 ≤ b ∧ b ≤ 1 ∧ l.Balanced ∧ r.Balanced

/-- The shape of a subtree that has just become higher: a new leaf, or a node that leans. -/
def Leaning : TNode E → Prop
  | null => False
  | node l _ b r => b ≠ 0 ∨ (l.height = 0 ∧ r.height = 0)

@[simp] theorem height_null : (null : TNode E).height = 0 := rfl

@[simp] theorem height_node (l r : TNode E) (x : E) (b : ℤ) :
    (node l x b r).height = max l.height r.height + 1 := rfl

@[simp] theorem inorder_null : (null : TNode E).inorder = [] := rfl

@[simp] theorem inorder_node (l r : TNode E) (x : E) (b : ℤ) :
    (node l x b r).inorder = l.inorder ++ x :: r.inorder := rfl

@[simp] theorem balanced_null : (null : TNode E).Balanced := trivial

theorem balanced_node {l r : TNode E} {x : E} {b : ℤ} :
    (node l x b r).Balanced ↔
      b = (r.height : ℤ) - l.height ∧ -1 ≤ b ∧ b ≤ 1 ∧ l.Balanced ∧ r.Balanced := Iff.rfl

theorem length_inorder (t : TNode E) : t.inorder.length = t.numNodes := by
  induction t with
  | null => rfl
  | node l x b r ihl ihr =>
    simp only [inorder_node, numNodes, List.length_append, List.length_cons, ihl, ihr]
    omega

theorem height_pos_iff {t : TNode E} : 0 < t.height ↔ ∃ l x b r, t = node l x b r := by
  cases t with
  | null => simp
  | node l x b r => simp

/-- The Fibonacci bound on the size of an AVL tree. -/
theorem fib_le_numNodes {t : TNode E} (hb : t.Balanced) :
    Nat.fib (t.height + 2) ≤ t.numNodes + 1 := by
  induction t with
  | null => simp [numNodes]
  | node l x b r ihl ihr =>
    obtain ⟨hd, hlo, hhi, hl, hr⟩ := hb
    have hfl := ihl hl
    have hfr := ihr hr
    have hstep : ∀ n, Nat.fib (n + 3) = Nat.fib (n + 1) + Nat.fib (n + 2) :=
      fun n => Nat.fib_add_two
    have hmono : ∀ n, Nat.fib (n + 1) ≤ Nat.fib (n + 2) := fun n => Nat.fib_le_fib_succ
    simp only [height_node, numNodes]
    rcases Nat.le_total l.height r.height with hle | hle
    · rw [max_eq_right hle, hstep]
      have hlow : Nat.fib (r.height + 1) ≤ Nat.fib (l.height + 2) := Nat.fib_mono (by omega)
      omega
    · rw [max_eq_left hle, hstep]
      have hlow : Nat.fib (l.height + 1) ≤ Nat.fib (r.height + 2) := Nat.fib_mono (by omega)
      omega

end TNode

namespace TreeSet

open TNode

variable {a b d e l r : TNode E} {x y z : E} {p q s bal : ℤ} {done : Bool}

@[simp] theorem singleRotate_false :
    singleRotate (node a x p (node b y q d)) false = some (node (node a x p b) y q d) := rfl

@[simp] theorem singleRotate_true :
    singleRotate (node (node a x p b) y q d) true = some (node a x p (node b y q d)) := rfl

@[simp] theorem doubleRotate_false :
    doubleRotate (node a x p (node (node b z s d) y q e)) false =
      some (node (node a x p b) z s (node d y q e)) := rfl

@[simp] theorem doubleRotate_true :
    doubleRotate (node (node a x p (node b z s d)) y q e) true =
      some (node (node a x p b) z s (node d y q e)) := rfl

/-- The balances `adjustBalance` gives to the root and to its child, from that of the grandchild. -/
def adjusted (s bal : ℤ) : ℤ × ℤ :=
  if s = 0 then (0, 0) else if s = bal then (-bal, 0) else (0, bal)

/-- What a rebalancing step hands to the node above it: the in-order sequence `xs` in an AVL tree
of the stated height. -/
structure Rebalanced (xs : List E) (height : ℕ) (t : TNode E) : Prop where
  inorder : t.inorder = xs
  balanced : t.Balanced
  height : t.height = height

theorem rebalanced_single_true (hn : (node a x (-1) b).Balanced) (hd : d.Balanced)
    (hh : (node a x (-1) b).height = d.height + 2) :
    Rebalanced ((node a x (-1) b).inorder ++ y :: d.inorder) (d.height + 2)
      (node a x 0 (node b y 0 d)) := by
  obtain ⟨hbal, _, _, ha, hb⟩ := hn
  simp only [height_node] at hh
  refine ⟨by simp, ?_, by simp only [height_node]; omega⟩
  simp only [balanced_node, height_node]
  exact ⟨by omega, by omega, by omega, ha, by omega, by omega, by omega, hb, hd⟩

theorem rebalanced_single_false (ha : a.Balanced) (hn : (node b y 1 d).Balanced)
    (hh : (node b y 1 d).height = a.height + 2) :
    Rebalanced (a.inorder ++ x :: (node b y 1 d).inorder) (a.height + 2)
      (node (node a x 0 b) y 0 d) := by
  obtain ⟨hbal, _, _, hb, hd⟩ := hn
  simp only [height_node] at hh
  refine ⟨by simp, ?_, by simp only [height_node]; omega⟩
  simp only [balanced_node, height_node]
  exact ⟨by omega, by omega, by omega, ⟨by omega, by omega, by omega, ha, hb⟩, hd⟩

theorem rebalanced_double_true (hn : (node a x 1 (node b z s d)).Balanced) (he : e.Balanced)
    (hh : (node a x 1 (node b z s d)).height = e.height + 2) :
    Rebalanced ((node a x 1 (node b z s d)).inorder ++ y :: e.inorder) (e.height + 2)
      (node (node a x (adjusted s (-1)).2 b) z 0 (node d y (adjusted s (-1)).1 e)) := by
  obtain ⟨hbal, _, _, ha, hs, hlo, hhi, hb, hd⟩ := hn
  simp only [height_node] at hh hbal
  refine ⟨by simp, ?_, by simp only [height_node]; omega⟩
  simp only [balanced_node, height_node, adjusted]
  split_ifs <;> exact ⟨by omega, by omega, by omega, ⟨by omega, by omega, by omega, ha, hb⟩,
    by omega, by omega, by omega, hd, he⟩

theorem rebalanced_double_false (ha : a.Balanced) (hn : (node (node b z s d) y (-1) e).Balanced)
    (hh : (node (node b z s d) y (-1) e).height = a.height + 2) :
    Rebalanced (a.inorder ++ x :: (node (node b z s d) y (-1) e).inorder) (a.height + 2)
      (node (node a x (adjusted s 1).1 b) z 0 (node d y (adjusted s 1).2 e)) := by
  obtain ⟨hbal, _, _, ⟨hs, hlo, hhi, hb, hd⟩, he⟩ := hn
  simp only [height_node] at hh hbal
  refine ⟨by simp, ?_, by simp only [height_node]; omega⟩
  simp only [balanced_node, height_node, adjusted]
  split_ifs <;> exact ⟨by omega, by omega, by omega, ⟨by omega, by omega, by omega, ha, hb⟩,
    by omega, by omega, by omega, hd, he⟩

theorem insertBalance_false (hl : l.Balanced) (hr : r.Balanced) (hlean : l.Leaning)
    (hh : l.height = r.height + 2) :
    ∃ t, insertBalance (node l x (-2) r) false = some t ∧
      Rebalanced (l.inorder ++ x :: r.inorder) (r.height + 2) t := by
  obtain ⟨a, y, q, b, rfl⟩ := height_pos_iff.mp (show 0 < l.height by omega)
  obtain ⟨hd, hlo, hhi, ha, hb⟩ := hl
  have hq : q = -1 ∨ q = 1 := by
    rcases hlean with h | ⟨h₁, h₂⟩
    · omega
    · simp only [height_node, h₁, h₂] at hh
      omega
  rcases hq with rfl | rfl
  · exact ⟨_, rfl, rebalanced_single_true ⟨hd, hlo, hhi, ha, hb⟩ hr hh⟩
  · obtain ⟨c, z, s, f, rfl⟩ := height_pos_iff.mp (show 0 < b.height by omega)
    exact ⟨_, rfl, rebalanced_double_true ⟨hd, hlo, hhi, ha, hb⟩ hr hh⟩

theorem insertBalance_true (hl : l.Balanced) (hr : r.Balanced) (hlean : r.Leaning)
    (hh : r.height = l.height + 2) :
    ∃ t, insertBalance (node l x 2 r) true = some t ∧
      Rebalanced (l.inorder ++ x :: r.inorder) (l.height + 2) t := by
  obtain ⟨a, y, q, b, rfl⟩ := height_pos_iff.mp (show 0 < r.height by omega)
  obtain ⟨hd, hlo, hhi, ha, hb⟩ := hr
  have hq : q = -1 ∨ q = 1 := by
    rcases hlean with h | ⟨h₁, h₂⟩
    · omega
    · simp only [height_node, h₁, h₂] at hh
      omega
  rcases hq with rfl | rfl
  · obtain ⟨c, z, s, f, rfl⟩ := height_pos_iff.mp (show 0 < a.height by omega)
    exact ⟨_, rfl, rebalanced_double_false hl ⟨hd, hlo, hhi, ha, hb⟩ hh⟩
  · exact ⟨_, rfl, rebalanced_single_false hl ⟨hd, hlo, hhi, ha, hb⟩ hh⟩

/-- The outcome of an insertion into a subtree of height `height`: the new subtree holds `xs`, and
it grew by one exactly when the flag is still unset. -/
structure Inserted (xs : List E) (height : ℕ) (t : TNode E) (done : Bool) : Prop
    extends Rebalanced xs (height + if done then 0 else 1) t where
  leaning : done = false → t.Leaning

theorem insertRetrace_false {xs : List E} (hl : Inserted xs l.height a done)
    (hn : (node l x p r).Balanced) :
    ∃ t done', insertRetrace (node a x p r) false done = some (t, done') ∧
      Inserted (xs ++ x :: r.inorder) (node l x p r).height t done' := by
  obtain ⟨⟨hxs, ha, hh⟩, hlean⟩ := hl
  obtain ⟨hp, hlo, hhi, _, hr⟩ := hn
  cases done with
  | true =>
    refine ⟨_, _, rfl, ⟨?_, ?_, ?_⟩, nofun⟩
    · simp [hxs]
    · exact ⟨by simp at hh; omega, hlo, hhi, ha, hr⟩
    · simp_all
  | false =>
    simp only [Bool.false_eq_true, if_false] at hh
    have hret : insertRetrace (node a x p r) false false =
        if p - 1 = 0 then some (node a x (p - 1) r, true)
        else if (p - 1).natAbs > 1 then
          (insertBalance (node a x (p - 1) r) false).bind fun t => some (t, true)
        else some (node a x (p - 1) r, false) := rfl
    rw [hret]
    by_cases hzero : p - 1 = 0
    · refine ⟨_, _, if_pos hzero, ⟨by simp [hxs], ?_, ?_⟩, nofun⟩
      · exact ⟨by omega, by omega, by omega, ha, hr⟩
      · simp only [height_node, if_true]
        omega
    · rw [if_neg hzero]
      by_cases hbig : (p - 1).natAbs > 1
      · have hp2 : p = -1 := by omega
        subst hp2
        obtain ⟨t, ht, hin, hbal, hht⟩ :=
          insertBalance_false (x := x) ha hr (hlean rfl) (by omega)
        refine ⟨t, true, ?_, ⟨by rw [hin, hxs], hbal, ?_⟩, nofun⟩
        · rw [if_pos hbig]
          change (insertBalance (node a x (-2) r) false).bind _ = _
          rw [ht]
          rfl
        · simp only [hht, height_node, if_true]
          omega
      · refine ⟨_, _, if_neg hbig, ⟨by simp [hxs], ?_, ?_⟩, fun _ => Or.inl hzero⟩
        · exact ⟨by omega, by omega, by omega, ha, hr⟩
        · simp only [height_node, Bool.false_eq_true, if_false]
          omega

theorem insertRetrace_true {xs : List E} (hr : Inserted xs r.height a done)
    (hn : (node l x p r).Balanced) :
    ∃ t done', insertRetrace (node l x p a) true done = some (t, done') ∧
      Inserted (l.inorder ++ x :: xs) (node l x p r).height t done' := by
  obtain ⟨⟨hxs, ha, hh⟩, hlean⟩ := hr
  obtain ⟨hp, hlo, hhi, hl, _⟩ := hn
  cases done with
  | true =>
    refine ⟨_, _, rfl, ⟨?_, ?_, ?_⟩, nofun⟩
    · simp [hxs]
    · exact ⟨by simp at hh; omega, hlo, hhi, hl, ha⟩
    · simp_all
  | false =>
    simp only [Bool.false_eq_true, if_false] at hh
    have hret : insertRetrace (node l x p a) true false =
        if p + 1 = 0 then some (node l x (p + 1) a, true)
        else if (p + 1).natAbs > 1 then
          (insertBalance (node l x (p + 1) a) true).bind fun t => some (t, true)
        else some (node l x (p + 1) a, false) := rfl
    rw [hret]
    by_cases hzero : p + 1 = 0
    · refine ⟨_, _, if_pos hzero, ⟨by simp [hxs], ?_, ?_⟩, nofun⟩
      · exact ⟨by omega, by omega, by omega, hl, ha⟩
      · simp only [height_node, if_true]
        omega
    · rw [if_neg hzero]
      by_cases hbig : (p + 1).natAbs > 1
      · have hp2 : p = 1 := by omega
        subst hp2
        obtain ⟨t, ht, hin, hbal, hht⟩ :=
          insertBalance_true (x := x) hl ha (hlean rfl) (by omega)
        refine ⟨t, true, ?_, ⟨by rw [hin, hxs], hbal, ?_⟩, nofun⟩
        · rw [if_pos hbig]
          change (insertBalance (node l x 2 a) true).bind _ = _
          rw [ht]
          rfl
        · simp only [hht, height_node, if_true]
          omega
      · refine ⟨_, _, if_neg hbig, ⟨by simp [hxs], ?_, ?_⟩, fun _ => Or.inl hzero⟩
        · exact ⟨by omega, by omega, by omega, hl, ha⟩
        · simp only [height_node, Bool.false_eq_true, if_false]
          omega

/-- An insertion that gets its node puts the element at its sorted place and rebalances. -/
theorem insert_spec (c : Comparison E) (e : E) {t : TNode E} (hb : t.Balanced)
    (hs : c.Increasing t.inorder) :
    ∃ t' done, insert c.cmp true e t false = some (t', done) ∧
      Inserted (c.insert e t.inorder) t.height t' done := by
  induction t with
  | null => exact ⟨node null e 0 null, false, rfl, ⟨rfl, by simp [balanced_node], rfl⟩,
      fun _ => Or.inr ⟨rfl, rfl⟩⟩
  | node l x p r ihl ihr =>
    obtain ⟨hl, hr, _, _⟩ := c.increasing_append_cons.mp hs
    by_cases hx : c.cmp x e < 0
    · obtain ⟨sub, done, hsub, hins⟩ := ihr hb.2.2.2.2 hr
      obtain ⟨t', done', ht', hins'⟩ := insertRetrace_true hins hb
      refine ⟨t', done', ?_, ?_⟩
      · simpa only [insert, if_pos hx, hsub, Option.bind_eq_bind, Option.bind_some] using ht'
      · rwa [inorder_node, c.insert_append_cons_of_lt hs hx]
    · obtain ⟨sub, done, hsub, hins⟩ := ihl hb.2.2.2.1 hl
      obtain ⟨t', done', ht', hins'⟩ := insertRetrace_false hins hb
      refine ⟨t', done', ?_, ?_⟩
      · simpa only [insert, if_neg hx, hsub, Option.bind_eq_bind, Option.bind_some] using ht'
      · rwa [inorder_node, c.insert_append_cons_of_not_lt hx]

/-- The outcome of a removal from a subtree of height `height`: the new subtree holds `xs`, and it
shrank by one exactly when the flag is still unset. -/
structure Removed (xs : List E) (height : ℕ) (t : TNode E) (done : Bool) : Prop where
  inorder : t.inorder = xs
  balanced : t.Balanced
  height : t.height + (if done then 0 else 1) = height

theorem removeBalance_true (hl : l.Balanced) (hr : r.Balanced) (hh : l.height = r.height + 2) :
    ∃ t done, removeBalance (node l x (-2) r) true false = some (t, done) ∧
      Removed (l.inorder ++ x :: r.inorder) (r.height + 3) t done := by
  obtain ⟨a, y, q, b, rfl⟩ := height_pos_iff.mp (show 0 < l.height by omega)
  obtain ⟨hd, hlo, hhi, ha, hb⟩ := hl
  have hq : q = -1 ∨ q = 0 ∨ q = 1 := by omega
  rcases hq with rfl | rfl | rfl
  · obtain ⟨hin, hbal, hht⟩ :=
      rebalanced_single_true (y := x) (x := y) ⟨hd, hlo, hhi, ha, hb⟩ hr hh
    exact ⟨_, _, rfl, hin, hbal, by rw [hht]; rfl⟩
  · -- the sibling is even: one rotation, and the height stays
    simp only [height_node] at hh
    refine ⟨node a y 1 (node b x (-1) r), true, rfl, by simp, ?_, ?_⟩
    · simp only [balanced_node, height_node]
      exact ⟨by omega, by omega, by omega, ha, by omega, by omega, by omega, hb, hr⟩
    · simp only [height_node, if_true]
      omega
  · obtain ⟨c, z, s, f, rfl⟩ := height_pos_iff.mp (show 0 < b.height by omega)
    obtain ⟨hin, hbal, hht⟩ :=
      rebalanced_double_true (y := x) (x := y) ⟨hd, hlo, hhi, ha, hb⟩ hr hh
    exact ⟨node (node a y (adjusted s (-1)).2 c) z 0 (node f x (adjusted s (-1)).1 r), false, rfl,
      hin, hbal, by rw [hht]; rfl⟩

theorem removeBalance_false (hl : l.Balanced) (hr : r.Balanced) (hh : r.height = l.height + 2) :
    ∃ t done, removeBalance (node l x 2 r) false false = some (t, done) ∧
      Removed (l.inorder ++ x :: r.inorder) (l.height + 3) t done := by
  obtain ⟨a, y, q, b, rfl⟩ := height_pos_iff.mp (show 0 < r.height by omega)
  obtain ⟨hd, hlo, hhi, ha, hb⟩ := hr
  have hq : q = -1 ∨ q = 0 ∨ q = 1 := by omega
  rcases hq with rfl | rfl | rfl
  · obtain ⟨c, z, s, f, rfl⟩ := height_pos_iff.mp (show 0 < a.height by omega)
    obtain ⟨hin, hbal, hht⟩ :=
      rebalanced_double_false (x := x) (y := y) hl ⟨hd, hlo, hhi, ha, hb⟩ hh
    exact ⟨node (node l x (adjusted s 1).1 c) z 0 (node f y (adjusted s 1).2 b), false, rfl,
      hin, hbal, by rw [hht]; rfl⟩
  · simp only [height_node] at hh
    refine ⟨node (node l x 1 a) y (-1) b, true, rfl, by simp, ?_, ?_⟩
    · simp only [balanced_node, height_node]
      exact ⟨by omega, by omega, by omega, ⟨by omega, by omega, by omega, hl, ha⟩, hb⟩
    · simp only [height_node, if_true]
      omega
  · obtain ⟨hin, hbal, hht⟩ :=
      rebalanced_single_false (x := x) (y := y) hl ⟨hd, hlo, hhi, ha, hb⟩ hh
    exact ⟨_, _, rfl, hin, hbal, by rw [hht]; rfl⟩

theorem removeRetrace_false {xs : List E} (hl : Removed xs l.height a done)
    (hn : (node l y p r).Balanced) :
    ∃ t done', removeRetrace (node a x p r) false done = some (t, done') ∧
      Removed (xs ++ x :: r.inorder) (node l y p r).height t done' := by
  obtain ⟨hxs, ha, hh⟩ := hl
  obtain ⟨hp, hlo, hhi, _, hr⟩ := hn
  cases done with
  | true =>
    refine ⟨_, _, rfl, by simp [hxs], ?_, ?_⟩
    · exact ⟨by simp at hh; omega, hlo, hhi, ha, hr⟩
    · simp_all
  | false =>
    simp only [Bool.false_eq_true, if_false] at hh
    have hret : removeRetrace (node a x p r) false false =
        if (p - -1).natAbs = 1 then some (node a x (p - -1) r, true)
        else if (p - -1).natAbs > 1 then removeBalance (node a x (p - -1) r) false false
        else some (node a x (p - -1) r, false) := rfl
    rw [hret]
    by_cases hone : (p - -1).natAbs = 1
    · refine ⟨_, _, if_pos hone, by simp [hxs], ?_, ?_⟩
      · exact ⟨by omega, by omega, by omega, ha, hr⟩
      · simp only [height_node, if_true]
        omega
    · rw [if_neg hone]
      by_cases hbig : (p - -1).natAbs > 1
      · have hp2 : p = 1 := by omega
        subst hp2
        obtain ⟨t, done', ht, hin, hbal, hht⟩ :=
          removeBalance_false (x := x) ha hr (by omega)
        refine ⟨t, done', by rw [if_pos hbig]; exact ht, by rw [hin, hxs], hbal, ?_⟩
        rw [hht, height_node]
        omega
      · refine ⟨_, _, if_neg hbig, by simp [hxs], ?_, ?_⟩
        · exact ⟨by omega, by omega, by omega, ha, hr⟩
        · simp only [height_node, Bool.false_eq_true, if_false]
          omega

theorem removeRetrace_true {xs : List E} (hr : Removed xs r.height a done)
    (hn : (node l y p r).Balanced) :
    ∃ t done', removeRetrace (node l x p a) true done = some (t, done') ∧
      Removed (l.inorder ++ x :: xs) (node l y p r).height t done' := by
  obtain ⟨hxs, ha, hh⟩ := hr
  obtain ⟨hp, hlo, hhi, hl, _⟩ := hn
  cases done with
  | true =>
    refine ⟨_, _, rfl, by simp [hxs], ?_, ?_⟩
    · exact ⟨by simp at hh; omega, hlo, hhi, hl, ha⟩
    · simp_all
  | false =>
    simp only [Bool.false_eq_true, if_false] at hh
    have hret : removeRetrace (node l x p a) true false =
        if (p - 1).natAbs = 1 then some (node l x (p - 1) a, true)
        else if (p - 1).natAbs > 1 then removeBalance (node l x (p - 1) a) true false
        else some (node l x (p - 1) a, false) := rfl
    rw [hret]
    by_cases hone : (p - 1).natAbs = 1
    · refine ⟨_, _, if_pos hone, by simp [hxs], ?_, ?_⟩
      · exact ⟨by omega, by omega, by omega, hl, ha⟩
      · simp only [height_node, if_true]
        omega
    · rw [if_neg hone]
      by_cases hbig : (p - 1).natAbs > 1
      · have hp2 : p = -1 := by omega
        subst hp2
        obtain ⟨t, done', ht, hin, hbal, hht⟩ :=
          removeBalance_true (x := x) hl ha (by omega)
        refine ⟨t, done', by rw [if_pos hbig]; exact ht, by rw [hin, hxs], hbal, ?_⟩
        rw [hht, height_node]
        omega
      · refine ⟨_, _, if_neg hbig, by simp [hxs], ?_, ?_⟩
        · exact ⟨by omega, by omega, by omega, hl, ha⟩
        · simp only [height_node, Bool.false_eq_true, if_false]
          omega

theorem findMax_last {t : TNode E} (ht : t.isNull = false) :
    ∃ xs l y q, findMax t = node l y q null ∧ t.inorder = xs ++ [y] := by
  induction t with
  | null => simp [isNull] at ht
  | node l x p r _ ihr =>
    cases r with
    | null => exact ⟨l.inorder, l, x, p, rfl, rfl⟩
    | node rl y q rr =>
      obtain ⟨xs, l', y', q', hmax, hin⟩ := ihr rfl
      refine ⟨l.inorder ++ x :: xs, l', y', q', hmax, ?_⟩
      rw [inorder_node, hin]
      simp

theorem findMin_head {t : TNode E} (ht : t.isNull = false) :
    ∃ xs y q r, findMin t = node null y q r ∧ t.inorder = y :: xs := by
  induction t with
  | null => simp [isNull] at ht
  | node l x p r ihl _ =>
    cases l with
    | null => exact ⟨r.inorder, x, p, r, rfl, rfl⟩
    | node ll y q lr =>
      obtain ⟨xs, y', q', r', hmin, hin⟩ := ihl rfl
      refine ⟨xs ++ x :: r.inorder, y', q', r', hmin, ?_⟩
      rw [inorder_node, hin]
      simp

theorem height_of_isNull {t : TNode E} (ht : t.isNull) : t = null := by
  cases t with
  | null => rfl
  | node l x p r => simp [isNull] at ht

/-- A removal of an element that is present deletes exactly that element and rebalances. -/
theorem remove_spec (c : Comparison E) (uf : Bool) (e : E) {t : TNode E} (hb : t.Balanced)
    (hs : c.Increasing t.inorder) (hm : c.Mem e t.inorder) :
    ∃ t' done calls, remove c.cmp uf t e false = some (t', done, calls) ∧
      Removed (c.erase e t.inorder) t.height t' done := by
  induction t generalizing e with
  | null => simp at hm
  | node l x p r ihl ihr =>
    obtain ⟨hl, hr, _, _⟩ := c.increasing_append_cons.mp hs
    by_cases hx : c.cmp e x = 0
    · rw [inorder_node, c.erase_append_cons_of_eq hs hx]
      by_cases hnull : l.isNull ∨ r.isNull
      · have hrem : remove c.cmp uf (node l x p r) e false =
            some (if l.isNull then r else l, false, if uf then [x] else []) := by
          simp only [remove, hx, hnull, and_self, if_true]
        refine ⟨_, _, _, hrem, ?_⟩
        obtain ⟨hd, hlo, hhi, hbl, hbr⟩ := hb
        by_cases hlnull : l.isNull
        · obtain rfl := height_of_isNull hlnull
          exact ⟨by simp [isNull], hbr, by simp [isNull]⟩
        · obtain rfl := height_of_isNull (hnull.resolve_left hlnull)
          exact ⟨by simp [hlnull], by simpa [hlnull] using hbl, by simp [hlnull]⟩
      · -- two children: the heir is the last element of the left subtree
        have hlnull : l.isNull = false := by simpa using fun h => hnull (Or.inl h)
        obtain ⟨xs, l', y, q, hmax, hin⟩ := findMax_last hlnull
        have hy : c.Mem y l.inorder := ⟨y, by rw [hin]; simp, c.cmp_self y⟩
        obtain ⟨sub, done, calls, hsub, hrem⟩ := ihl y hb.2.2.2.1 hl hy
        have hers : c.erase y l.inorder = xs := by
          have h := c.erase_append_cons_of_eq (l := xs) (r := []) (hin ▸ hl) (c.cmp_self y)
          rwa [List.append_nil, ← hin] at h
        rw [hers] at hrem
        obtain ⟨t', done', ht', hrem'⟩ := removeRetrace_false (x := y) hrem hb
        refine ⟨t', done', calls, ?_, ?_⟩
        · have hnlt : ¬ c.cmp y y < 0 := by rw [c.cmp_self]; omega
          simp only [remove, hnull, and_false, if_false, hx, if_true, hmax, TNode.element,
            Option.bind_eq_bind, Option.bind_some, Option.pure_def, hnlt, hsub, ht']
        · rw [hin]
          simpa using hrem'
    · by_cases hlt : c.cmp x e < 0
      · obtain ⟨sub, done, calls, hsub, hrem⟩ :=
          ihr e hb.2.2.2.2 hr ((c.mem_append_cons_of_gt hs hlt).mp hm)
        obtain ⟨t', done', ht', hrem'⟩ := removeRetrace_true (x := x) hrem hb
        refine ⟨t', done', calls, ?_, ?_⟩
        · simp only [remove, false_and, if_false, hx, Option.bind_eq_bind, Option.bind_some,
            Option.pure_def, hlt, if_true, hsub, ht']
        · rwa [inorder_node, c.erase_append_cons_of_gt hs hlt]
      · have hgt : c.cmp e x < 0 := by
          have := c.swap x e
          have := c.swap e x
          omega
        obtain ⟨sub, done, calls, hsub, hrem⟩ :=
          ihl e hb.2.2.2.1 hl ((c.mem_append_cons_of_lt hs hgt).mp hm)
        obtain ⟨t', done', ht', hrem'⟩ := removeRetrace_false (x := x) hrem hb
        refine ⟨t', done', calls, ?_, ?_⟩
        · simp only [remove, false_and, if_false, hx, Option.bind_eq_bind, Option.bind_some,
            Option.pure_def, hlt, hsub, ht']
        · rwa [inorder_node, c.erase_append_cons_of_lt hs hgt]

end TreeSet

end CIS415
