import CIS415.Lib.Heap
import Mathlib.Data.Tree.Basic

/-!
# Binary trees on a heap

A cell holds two links and its data. `Rep` says that a pointer is the root of a tree whose nodes are the
cells at the addresses of a list, in the order of the tree, each used once. A `Change` is what an
operation on a tree may do to the heap: it leaves every cell alone that is outside the tree, the cells
that leave the tree are freed, and those that join it were not allocated before.
-/

namespace Pointer

variable {D : Type}

structure TreeCell (D : Type) where
  link0 : Option Addr
  link1 : Option Addr
  data : D

namespace TreeCell

def link (c : TreeCell D) (dir : Bool) : Option Addr :=
  if dir then c.link1 else c.link0

def setLink (dir : Bool) (p : Option Addr) (c : TreeCell D) : TreeCell D :=
  if dir then { c with link1 := p } else { c with link0 := p }

def setData (d : D) (c : TreeCell D) : TreeCell D :=
  { c with data := d }

theorem link_setLink (c : TreeCell D) (dir : Bool) (p : Option Addr) :
    (c.setLink dir p).link dir = p := by
  cases dir <;> rfl

theorem link_setLink_not (c : TreeCell D) (dir : Bool) (p : Option Addr) :
    (c.setLink dir p).link (!dir) = c.link (!dir) := by
  cases dir <;> rfl

theorem setLink_link (c : TreeCell D) (dir : Bool) : c.setLink dir (c.link dir) = c := by
  cases dir <;> rfl

theorem data_setLink (c : TreeCell D) (dir : Bool) (p : Option Addr) :
    (c.setLink dir p).data = c.data := by
  cases dir <;> rfl

end TreeCell

namespace Heap

def deref {N : Type} (h : Heap N) (p : Option Addr) : Option N :=
  p.bind h.load

def update {N : Type} (h : Heap N) (p : Option Addr) (f : N → N) : Option (Heap N) := do
  let a ← p
  let n ← h.load a
  h.store a (f n)

theorem deref_some {N : Type} {h : Heap N} {a : Addr} {n : N} (ha : h.load a = some n) :
    h.deref (some a) = some n := ha

theorem update_spec {N : Type} {h : Heap N} {a : Addr} {n : N} (ha : h.load a = some n) (f : N → N) :
    ∃ h', h.update (some a) f = some h' ∧ h'.load = Function.update h.load a (some (f n)) ∧
      h'.brk = h.brk := by
  obtain ⟨h', hs, hl, hb⟩ := store_spec ha (f n)
  refine ⟨h', ?_, hl, hb⟩
  rw [update, Option.bind_eq_bind, Option.bind_some, ha]
  exact hs

theorem load_update_of_ne {N : Type} {h h' : Heap N} {a b : Addr} {f : N → N}
    (hup : h.update (some b) f = some h') (hne : a ≠ b) : h'.load a = h.load a := by
  rw [update, Option.bind_eq_bind, Option.bind_some] at hup
  obtain ⟨n, hn, -⟩ := Option.bind_eq_some_iff.mp hup
  obtain ⟨h₁, hup₁, hload, -⟩ := update_spec hn f
  have heq : h₁ = h' := by
    rw [update, Option.bind_eq_bind, Option.bind_some] at hup₁
    exact Option.some.inj (hup₁.symm.trans hup)
  rw [← heq, hload, Function.update_of_ne hne]

end Heap

variable {h h' h₁ h₂ : Heap (TreeCell D)} {p q : Option Addr} {a b : Addr}
  {as as' bs cs ls rs xs ys : List Addr} {t t' l r x y : BinaryTree D} {d : D} {c : TreeCell D}
  {dir : Bool}

/-- `p` is the root of `t`, whose nodes lie at the addresses `as`. -/
def IsTree (h : Heap (TreeCell D)) : Option Addr → BinaryTree D → List Addr → Prop
  | p, .nil, as => p = none ∧ as = []
  | p, .node d l r, as => ∃ a pl pr ls rs, p = some a ∧ as = ls ++ a :: rs ∧
      h.load a = some ⟨pl, pr, d⟩ ∧ IsTree h pl l ls ∧ IsTree h pr r rs

structure Rep (h : Heap (TreeCell D)) (p : Option Addr) (t : BinaryTree D) (as : List Addr) : Prop where
  tree : IsTree h p t as
  nodup : as.Nodup

theorem rep_nil : Rep h p .nil as ↔ p = none ∧ as = [] := by
  constructor
  · exact fun hr => hr.tree
  · rintro ⟨rfl, rfl⟩
    exact ⟨⟨rfl, rfl⟩, List.nodup_nil⟩

theorem Rep.node (hr : Rep h p (.node d l r) as) :
    ∃ a pl pr ls rs, p = some a ∧ as = ls ++ a :: rs ∧ h.load a = some ⟨pl, pr, d⟩ ∧ Rep h pl l ls ∧
      Rep h pr r rs ∧ a ∉ ls ∧ a ∉ rs ∧ ∀ b ∈ ls, b ∉ rs := by
  obtain ⟨⟨a, pl, pr, ls, rs, hp, rfl, ha, hl, hr'⟩, hn⟩ := hr
  obtain ⟨hnl, hnr, hdis⟩ := List.nodup_append.mp hn
  obtain ⟨har, hnr⟩ := List.nodup_cons.mp hnr
  refine ⟨a, pl, pr, ls, rs, hp, rfl, ha, ⟨hl, hnl⟩, ⟨hr', hnr⟩, ?_, har, ?_⟩
  · exact fun hmem => hdis a hmem a List.mem_cons_self rfl
  · exact fun b hb hmem => hdis b hb b (List.mem_cons_of_mem a hmem) rfl

theorem rep_node (ha : h.load a = some c) (hl : Rep h c.link0 l ls) (hr : Rep h c.link1 r rs)
    (hal : a ∉ ls) (har : a ∉ rs) (hdis : ∀ b ∈ ls, b ∉ rs) :
    Rep h (some a) (.node c.data l r) (ls ++ a :: rs) := by
  refine ⟨⟨a, c.link0, c.link1, ls, rs, rfl, rfl, ha, hl.tree, hr.tree⟩, ?_⟩
  refine List.nodup_append.mpr ⟨hl.nodup, List.nodup_cons.mpr ⟨har, hr.nodup⟩, ?_⟩
  rintro b hb b' hb' rfl
  rcases List.mem_cons.mp hb' with rfl | hb'
  · exact hal hb
  · exact hdis b hb hb'

theorem Rep.of_null (hr : Rep h none t as) : as = [] := by
  cases t with
  | nil => exact (rep_nil.mp hr).2
  | node d l r =>
    obtain ⟨a, -, -, -, -, heq, -⟩ := hr.node
    cases heq

theorem Rep.eq_none_iff (hr : Rep h p t as) : p = none ↔ t = .nil := by
  cases t with
  | nil => exact iff_of_true (rep_nil.mp hr).1 rfl
  | node d l r =>
    obtain ⟨a, -, -, -, -, rfl, -⟩ := hr.node
    exact iff_of_false (fun heq => by cases heq) (fun heq => by cases heq)

theorem IsTree.frame (ht : IsTree h p t as) (hload : ∀ b ∈ as, h'.load b = h.load b) :
    IsTree h' p t as := by
  induction t generalizing p as with
  | nil => exact ht
  | node d l r ihl ihr =>
    obtain ⟨a, pl, pr, ls, rs, rfl, rfl, ha, hl, hr⟩ := ht
    refine ⟨a, pl, pr, ls, rs, rfl, rfl, ?_, ?_, ?_⟩
    · rw [hload a (by simp), ha]
    · exact ihl hl fun b hb => hload b (List.mem_append_left _ hb)
    · exact ihr hr fun b hb => hload b (List.mem_append_right _ (List.mem_cons_of_mem a hb))

theorem Rep.frame (hr : Rep h p t as) (hload : ∀ b ∈ as, h'.load b = h.load b) : Rep h' p t as :=
  ⟨hr.tree.frame hload, hr.nodup⟩

theorem Rep.allocated (hr : Rep h p t as) (hb : b ∈ as) : (h.load b).isSome := by
  obtain ⟨ht, -⟩ := hr
  induction t generalizing p as with
  | nil =>
    obtain ⟨-, rfl⟩ := ht
    cases hb
  | node d l r ihl ihr =>
    obtain ⟨a, pl, pr, ls, rs, rfl, rfl, ha, hl, hr⟩ := ht
    rcases List.mem_append.mp hb with hb | hb
    · exact ihl hb hl
    · rcases List.mem_cons.mp hb with rfl | hb
      · rw [ha]
        rfl
      · exact ihr hb hr

theorem Rep.length (hr : Rep h p t as) : as.length = t.numNodes := by
  obtain ⟨ht, -⟩ := hr
  induction t generalizing p as with
  | nil =>
    obtain ⟨-, rfl⟩ := ht
    rfl
  | node d l r ihl ihr =>
    obtain ⟨a, pl, pr, ls, rs, rfl, rfl, ha, hl, hr⟩ := ht
    rw [List.length_append, List.length_cons, ihl hl, ihr hr, BinaryTree.numNodes]
    omega

theorem Rep.numNodes_le (hr : Rep h p t as) : t.numNodes ≤ h.brk :=
  hr.length ▸ h.length_le_brk hr.nodup fun _ hb => hr.allocated hb

structure Change (h h' : Heap (TreeCell D)) (as as' : List Addr) : Prop where
  outside : ∀ b, b ∉ as → b ∉ as' → h'.load b = h.load b
  freed : ∀ b ∈ as, b ∉ as' → h'.load b = none
  fresh : ∀ b ∈ as', b ∉ as → h.load b = none

theorem Change.refl (h : Heap (TreeCell D)) (as : List Addr) : Change h h as as :=
  ⟨fun _ _ _ => rfl, fun _ hb hn => absurd hb hn, fun _ hb hn => absurd hb hn⟩

/-- The operation touches cells of the tree only, and keeps them all. -/
theorem Change.of_outside (hmem : ∀ b, b ∈ as' ↔ b ∈ as)
    (hout : ∀ b, b ∉ as → h'.load b = h.load b) : Change h h' as as' :=
  ⟨fun b hb _ => hout b hb, fun b hb hn => absurd ((hmem b).mpr hb) hn,
    fun b hb hn => absurd ((hmem b).mp hb) hn⟩

theorem Change.trans (h₁' : Change h h₁ as bs) (h₂' : Change h₁ h₂ bs cs) : Change h h₂ as cs := by
  refine ⟨fun b ha hc => ?_, fun b ha hc => ?_, fun b hc ha => ?_⟩
  · by_cases hb : b ∈ bs
    · rw [h₂'.freed b hb hc, h₁'.fresh b hb ha]
    · rw [h₂'.outside b hb hc, h₁'.outside b ha hb]
  · by_cases hb : b ∈ bs
    · exact h₂'.freed b hb hc
    · rw [h₂'.outside b hb hc, h₁'.freed b ha hb]
  · by_cases hb : b ∈ bs
    · exact h₁'.fresh b hb ha
    · rw [← h₁'.outside b ha hb, h₂'.fresh b hc hb]

/-- A cell that is allocated and outside the tree before is outside it afterwards, and unchanged. -/
theorem Change.keeps (hc : Change h h' as bs) (hb : (h.load b).isSome) (hn : b ∉ as) :
    b ∉ bs ∧ h'.load b = h.load b := by
  have hnot : b ∉ bs := by
    intro hmem
    rw [hc.fresh b hmem hn] at hb
    cases hb
  exact ⟨hnot, hc.outside b hn hnot⟩

/-- The node whose link `dir` leads to `x` and whose other link leads to `y`. -/
def branch (dir : Bool) (d : D) (x y : BinaryTree D) : BinaryTree D :=
  if dir then .node d y x else .node d x y

theorem branch_not (dir : Bool) (d : D) (x y : BinaryTree D) :
    branch (!dir) d x y = branch dir d y x := by
  cases dir <;> rfl

/-- A tree in two parts and a root. -/
structure Parts (as : List Addr) (a : Addr) (xs ys : List Addr) : Prop where
  left : a ∉ xs
  right : a ∉ ys
  apart : ∀ b ∈ xs, b ∉ ys
  mem : ∀ b, b ∈ as ↔ b = a ∨ b ∈ xs ∨ b ∈ ys

theorem Rep.split (ht : Rep h p (branch dir d x y) as) :
    ∃ a c xs ys, p = some a ∧ h.load a = some c ∧ c.data = d ∧ Rep h (c.link dir) x xs ∧
      Rep h (c.link (!dir)) y ys ∧ Parts as a xs ys := by
  cases dir with
  | false =>
    obtain ⟨a, pl, pr, ls, rs, rfl, rfl, ha, hl, hr, hal, har, hdis⟩ := ht.node
    refine ⟨a, _, ls, rs, rfl, ha, rfl, hl, hr, hal, har, hdis, fun b => ?_⟩
    rw [List.mem_append, List.mem_cons, or_left_comm]
  | true =>
    obtain ⟨a, pl, pr, ls, rs, rfl, rfl, ha, hl, hr, hal, har, hdis⟩ := ht.node
    refine ⟨a, _, rs, ls, rfl, ha, rfl, hr, hl, har, hal, fun b hb hb' => hdis b hb' hb, fun b => ?_⟩
    rw [List.mem_append, List.mem_cons, or_left_comm, or_comm (a := b ∈ ls)]

theorem Rep.join (dir : Bool) (ha : h.load a = some c) (hx : Rep h (c.link dir) x xs)
    (hy : Rep h (c.link (!dir)) y ys) (hax : a ∉ xs) (hay : a ∉ ys) (hdis : ∀ b ∈ xs, b ∉ ys) :
    ∃ as, Rep h (some a) (branch dir c.data x y) as ∧ ∀ b, b ∈ as ↔ b = a ∨ b ∈ xs ∨ b ∈ ys := by
  cases dir with
  | false =>
    refine ⟨xs ++ a :: ys, rep_node ha hx hy hax hay hdis, fun b => ?_⟩
    rw [List.mem_append, List.mem_cons, or_left_comm]
  | true =>
    refine ⟨ys ++ a :: xs, rep_node ha hy hx hay hax fun b hb hb' => hdis b hb' hb, fun b => ?_⟩
    rw [List.mem_append, List.mem_cons, or_left_comm, or_comm (a := b ∈ ys)]

/-- What an operation has made of the tree at `as`. -/
def Makes (h : Heap (TreeCell D)) (as : List Addr) (h' : Heap (TreeCell D)) (p' : Option Addr)
    (t' : BinaryTree D) : Prop :=
  ∃ as', Rep h' p' t' as' ∧ Change h h' as as'

theorem makes_malloc (h : Heap (TreeCell D)) (d : D) :
    Makes h [] (h.malloc ⟨none, none, d⟩).2 (some h.brk) (.node d .nil .nil) := by
  have hnil : Rep (h.malloc ⟨none, none, d⟩).2 none .nil [] := rep_nil.mpr ⟨rfl, rfl⟩
  have hload : (h.malloc ⟨none, none, d⟩).2.load h.brk = some ⟨none, none, d⟩ := by
    rw [Heap.malloc_load, Function.update_self]
  refine ⟨[h.brk], rep_node hload hnil hnil List.not_mem_nil List.not_mem_nil
    fun b hb => absurd hb List.not_mem_nil, fun b _ hb => ?_,
    fun b hb => absurd hb List.not_mem_nil, fun b hb _ => ?_⟩
  · rw [Heap.malloc_load, Function.update_of_ne fun heq => hb (List.mem_singleton.mpr heq)]
  · obtain rfl := List.mem_singleton.mp hb
    exact h.load_brk

/-- A node with a NULL link is freed, and its other subtree takes its place. -/
theorem Rep.freeNode (dir : Bool) (ht : Rep h (some a) (branch dir d x y) as) (hc : h.load a = some c)
    (hnull : c.link (!dir) = none) :
    ∃ h', h.free a = some h' ∧ Makes h as h' (c.link dir) x := by
  obtain ⟨_, _, xs, ys, heq, ha, -, hx, hy, hparts⟩ := ht.split
  obtain rfl := Option.some.inj heq
  obtain rfl := Option.some.inj (hc.symm.trans ha)
  obtain ⟨h', hfree, hload, -⟩ := Heap.free_spec ha
  have hother : ∀ b, b ≠ a → h'.load b = h.load b := by
    intro b hb
    rw [hload, Function.update_of_ne hb]
  rw [hnull] at hy
  obtain rfl := hy.of_null
  have hmem : ∀ b, b ∈ as ↔ b = a ∨ b ∈ xs := by
    intro b
    rw [hparts.mem, or_iff_left List.not_mem_nil]
  refine ⟨h', hfree, xs, hx.frame fun b hb => hother b fun heq => hparts.left (heq ▸ hb), ?_⟩
  refine ⟨fun b hb _ => ?_, fun b hb hn => ?_, fun b hb hn => ?_⟩
  · exact hother b fun heq => hb ((hmem b).mpr (Or.inl heq))
  · rw [((hmem b).mp hb).resolve_right hn, hload, Function.update_self]
  · exact absurd ((hmem b).mpr (Or.inr hb)) hn

theorem Rep.setData (dir : Bool) (ht : Rep h (some a) (branch dir d x y) as)
    (hc : h.load a = some c) (d' : D) :
    ∃ h', h.update (some a) (TreeCell.setData d') = some h' ∧ h'.load a = some (c.setData d') ∧
      Makes h as h' (some a) (branch dir d' x y) := by
  obtain ⟨_, _, xs, ys, heq, ha, -, hx, hy, hparts⟩ := ht.split
  obtain rfl := Option.some.inj heq
  obtain rfl := Option.some.inj (hc.symm.trans ha)
  obtain ⟨h', hup, hload, -⟩ := Heap.update_spec ha (TreeCell.setData d')
  have hother : ∀ b, b ≠ a → h'.load b = h.load b := by
    intro b hb
    rw [hload, Function.update_of_ne hb]
  have ha' : h'.load a = some (c.setData d') := by
    rw [hload, Function.update_self]
  have hx' : Rep h' (c.link dir) x xs :=
    hx.frame fun b hb => hother b fun heq => hparts.left (heq ▸ hb)
  have hy' : Rep h' (c.link (!dir)) y ys :=
    hy.frame fun b hb => hother b fun heq => hparts.right (heq ▸ hb)
  obtain ⟨as', hr, hmem⟩ := Rep.join dir ha' hx' hy' hparts.left hparts.right hparts.apart
  refine ⟨h', hup, ha', as', hr, Change.of_outside (fun b => ?_) fun b hb => hother b ?_⟩
  · rw [hmem, hparts.mem]
  · exact fun heq => hb ((hparts.mem b).mpr (Or.inl heq))

theorem Rep.below (ht : Rep h (some a) (branch dir d x y) as) (hc : h.load a = some c) :
    ∃ xs, Rep h (c.link dir) x xs ∧ ∀ h₁ q x', Makes h xs h₁ q x' → h₁.load a = some c ∧
      ∀ h₂ : Heap (TreeCell D), h₂.load = Function.update h₁.load a (some (c.setLink dir q)) →
        Makes h as h₂ (some a) (branch dir d x' y) := by
  obtain ⟨_, _, xs, ys, heq, ha, hd, hx, hy, hparts⟩ := ht.split
  obtain rfl := Option.some.inj heq
  obtain rfl := Option.some.inj (hc.symm.trans ha)
  refine ⟨xs, hx, fun h₁ q x' hmakes => ?_⟩
  obtain ⟨xs', hx', hchange⟩ := hmakes
  obtain ⟨hnot, hkeep⟩ := hchange.keeps (ha ▸ rfl) hparts.left
  have hys : ∀ b ∈ ys, b ∉ xs' ∧ h₁.load b = h.load b := by
    intro b hb
    exact hchange.keeps (hy.allocated hb) fun hmem => hparts.apart b hmem hb
  refine ⟨hkeep.trans ha, fun h₂ hload => ?_⟩
  have hother : ∀ b, b ≠ a → h₂.load b = h₁.load b := by
    intro b hb
    rw [hload, Function.update_of_ne hb]
  have ha₂ : h₂.load a = some (c.setLink dir q) := by
    rw [hload, Function.update_self]
  have hx₂ : Rep h₂ ((c.setLink dir q).link dir) x' xs' := by
    rw [TreeCell.link_setLink]
    exact hx'.frame fun b hb => hother b fun heq => hnot (heq ▸ hb)
  have hy₂ : Rep h₂ ((c.setLink dir q).link (!dir)) y ys := by
    rw [TreeCell.link_setLink_not]
    refine hy.frame fun b hb => ?_
    rw [hother b fun heq => hparts.right (heq ▸ hb), (hys b hb).2]
  obtain ⟨as', hr, hmem⟩ := Rep.join dir ha₂ hx₂ hy₂ hnot hparts.right
    fun b hb hb' => (hys b hb').1 hb
  rw [TreeCell.data_setLink, hd] at hr
  refine ⟨as', hr, fun b hb hb' => ?_, fun b hb hb' => ?_, fun b hb' hb => ?_⟩
  · rw [hmem, not_or, not_or] at hb'
    rw [hparts.mem, not_or, not_or] at hb
    rw [hother b hb.1, hchange.outside b hb.2.1 hb'.2.1]
  · rw [hmem, not_or, not_or] at hb'
    rw [hother b hb'.1]
    exact hchange.freed b ((((hparts.mem b).mp hb).resolve_left hb'.1).resolve_right hb'.2.2) hb'.2.1
  · rw [hparts.mem, not_or, not_or] at hb
    exact hchange.fresh b ((((hmem b).mp hb').resolve_left hb.1).resolve_right hb.2.2) hb.2.1

/-- The result of an operation on a subtree is stored in the link. -/
theorem Rep.setLink (ht : Rep h (some a) (branch dir d x y) as) (hc : h.load a = some c) :
    ∃ xs, Rep h (c.link dir) x xs ∧ ∀ h₁ q x', Makes h xs h₁ q x' →
      ∃ h₂, h₁.update (some a) (TreeCell.setLink dir q) = some h₂ ∧
        h₂.load a = some (c.setLink dir q) ∧ Makes h as h₂ (some a) (branch dir d x' y) := by
  obtain ⟨xs, hx, hbelow⟩ := ht.below hc
  refine ⟨xs, hx, fun h₁ q x' hmakes => ?_⟩
  obtain ⟨ha₁, hmakes'⟩ := hbelow h₁ q x' hmakes
  obtain ⟨h₂, hup, hload, -⟩ := Heap.update_spec ha₁ (TreeCell.setLink dir q)
  refine ⟨h₂, hup, ?_, hmakes' h₂ hload⟩
  rw [hload, Function.update_self]

/-- An operation on a subtree that leaves its root where it was. -/
theorem Rep.inside (ht : Rep h (some a) (branch dir d x y) as) (hc : h.load a = some c) :
    ∃ xs, Rep h (c.link dir) x xs ∧ ∀ h₁ x', Makes h xs h₁ (c.link dir) x' →
      h₁.load a = some c ∧ Makes h as h₁ (some a) (branch dir d x' y) := by
  obtain ⟨xs, hx, hbelow⟩ := ht.below hc
  refine ⟨xs, hx, fun h₁ x' hmakes => ?_⟩
  obtain ⟨ha₁, hmakes'⟩ := hbelow h₁ _ x' hmakes
  refine ⟨ha₁, hmakes' h₁ ?_⟩
  rw [TreeCell.setLink_link, ← ha₁, Function.update_eq_self]

end Pointer
