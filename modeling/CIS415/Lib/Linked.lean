import CIS415.Lib.Heap
import Mathlib.Data.List.Nodup
import Mathlib.Data.List.Chain

/-!
# Linked segments and rings

A link field of the nodes of a heap is a partial map `nx` from addresses to addresses. `Seg nx p as
q` says that following `nx` from `p` visits the nodes `as` in order and then stands at `q`. A `Ring`
is a doubly linked cycle through a sentinel: each neighbour relation holds in both directions.
-/

namespace Pointer

variable {nx pv : Addr → Option Addr} {a b d p s : Addr} {as bs : List Addr}

def Seg (nx : Addr → Option Addr) : Option Addr → List Addr → Option Addr → Prop
  | p, [], q => p = q
  | p, a :: as, q => p = some a ∧ Seg nx (nx a) as q

@[simp] theorem seg_nil {p q : Option Addr} : Seg nx p [] q ↔ p = q := Iff.rfl

@[simp] theorem seg_cons {p q : Option Addr} :
    Seg nx p (a :: as) q ↔ p = some a ∧ Seg nx (nx a) as q := Iff.rfl

theorem seg_append {p q : Option Addr} :
    Seg nx p (as ++ bs) q ↔ ∃ r, Seg nx p as r ∧ Seg nx r bs q := by
  induction as generalizing p with
  | nil => simp
  | cons a as ih =>
    rw [List.cons_append, seg_cons, ih]
    constructor
    · rintro ⟨hp, r, has, hbs⟩
      exact ⟨r, ⟨hp, has⟩, hbs⟩
    · rintro ⟨r, ⟨hp, has⟩, hbs⟩
      exact ⟨hp, r, has, hbs⟩

theorem seg_snoc {p q : Option Addr} :
    Seg nx p (as ++ [a]) q ↔ Seg nx p as (some a) ∧ nx a = q := by
  rw [seg_append]
  constructor
  · rintro ⟨r, has, hr, hq⟩
    exact ⟨hr ▸ has, hq⟩
  · rintro ⟨has, hq⟩
    exact ⟨some a, has, rfl, hq⟩

theorem seg_congr {nx' : Addr → Option Addr} {p q : Option Addr} (h : ∀ a ∈ as, nx' a = nx a) :
    Seg nx' p as q ↔ Seg nx p as q := by
  induction as generalizing p with
  | nil => rfl
  | cons a as ih =>
    rw [seg_cons, seg_cons, h a List.mem_cons_self, ih (fun b hb => h b (List.mem_cons_of_mem _ hb))]

theorem seg_update {p q : Option Addr} {v : Option Addr} (h : a ∉ as) :
    Seg (Function.update nx a v) p as q ↔ Seg nx p as q := by
  apply seg_congr
  intro b hb
  apply Function.update_of_ne
  intro he
  exact h (he ▸ hb)

/-- In a segment that ends in NULL all nodes but the last have a link. -/
theorem filter_isSome_seg {p : Option Addr} (h : Seg nx p as none) :
    as.filter (fun a => (nx a).isSome) = as.dropLast := by
  induction as generalizing p with
  | nil => rfl
  | cons a as ih =>
    obtain ⟨-, hseg⟩ := h
    rw [List.filter_cons, ih hseg]
    cases as with
    | nil =>
      rw [show nx a = none from hseg]
      rfl
    | cons b as =>
      rw [hseg.1]
      rfl

section

variable {N : Type} {heap : Heap N} {f : N → Option Addr}

theorem seg_end (h : Seg (heap.field f) (some p) [s] none) (hs : (heap.load s).isSome) :
    p = s ∧ ∃ n, heap.load s = some n ∧ f n = none := by
  obtain ⟨hp, hnext⟩ := h
  obtain ⟨n, hn⟩ := Option.isSome_iff_exists.mp hs
  refine ⟨Option.some.inj hp, n, hn, ?_⟩
  rw [← Heap.field_of_load hn f]
  exact hnext

/-- A node before the end has a link, and the segment goes on there. -/
theorem seg_before_end (h : Seg (heap.field f) (some p) (a :: as ++ [s]) none) :
    p = a ∧ ∃ n q, heap.load a = some n ∧ f n = some q ∧
      Seg (heap.field f) (some q) (as ++ [s]) none := by
  obtain ⟨hp, hseg⟩ := h
  obtain ⟨q, hq⟩ : ∃ q, heap.field f a = some q := by
    cases as with
    | nil => exact ⟨s, hseg.1⟩
    | cons q as => exact ⟨q, hseg.1⟩
  obtain ⟨n, hn, hlink⟩ := Heap.load_of_field hq
  exact ⟨Option.some.inj hp, n, q, hn, hlink, hq ▸ hseg⟩

end

/-- A node that is not among `as` shows in no field of theirs. -/
theorem map_update_of_notMem {V : Type*} {f : Addr → V} {v : V} (h : a ∉ as) :
    as.map (Function.update f a v) = as.map f := by
  apply List.map_congr_left
  intro b hb
  apply Function.update_of_ne
  rintro rfl
  exact h hb

def Neighbours (nx pv : Addr → Option Addr) (a b : Addr) : Prop :=
  nx a = some b ∧ pv b = some a

/-- The nodes `as` in ring order after the sentinel `s`. -/
structure Ring (nx pv : Addr → Option Addr) (s : Addr) (as : List Addr) : Prop where
  chain : (s :: as ++ [s]).IsChain (Neighbours nx pv)
  nodup : (s :: as).Nodup

theorem neighbours_congr {nx' pv' : Addr → Option Addr} (ha : nx' a = nx a) (hb : pv' b = pv b) :
    Neighbours nx' pv' a b ↔ Neighbours nx pv a b := by
  unfold Neighbours
  rw [ha, hb]

theorem Ring.forward (h : Ring nx pv s as) : Seg nx (nx s) as (some s) := by
  have hgen : ∀ (as : List Addr) (a b : Addr), (a :: as ++ [b]).IsChain (Neighbours nx pv) →
      Seg nx (nx a) as (some b) := by
    intro as
    induction as with
    | nil =>
      intro a b hc
      exact (List.isChain_cons_cons.mp hc).1.1
    | cons x as ih =>
      intro a b hc
      obtain ⟨hax, hc⟩ := List.isChain_cons_cons.mp hc
      exact ⟨hax.1, ih x b hc⟩
  exact hgen as s s h.chain

theorem Ring.backward (h : Ring nx pv s as) : Seg pv (pv s) as.reverse (some s) := by
  have hgen : ∀ (as : List Addr) (a b : Addr), (a :: as ++ [b]).IsChain (Neighbours nx pv) →
      Seg pv (pv b) as.reverse (some a) := by
    intro as
    induction as with
    | nil =>
      intro a b hc
      exact (List.isChain_cons_cons.mp hc).1.2
    | cons x as ih =>
      intro a b hc
      obtain ⟨hax, hc⟩ := List.isChain_cons_cons.mp hc
      rw [List.reverse_cons, seg_snoc]
      exact ⟨ih x b hc, hax.2⟩
  exact hgen as s s h.chain

theorem ring_nil : Ring nx pv s [] ↔ nx s = some s ∧ pv s = some s := by
  constructor
  · intro h
    exact (List.isChain_cons_cons.mp h.chain).1
  · intro h
    exact ⟨List.isChain_cons_cons.mpr ⟨h, List.isChain_singleton s⟩, List.nodup_singleton s⟩

/-- The neighbours of a position between `l` and `r`: `b` ends the nodes before it and `d` starts
the nodes after it, either of which may be the sentinel. -/
structure Between (s : Addr) (l r : List Addr) (b d : Addr) : Prop where
  before : ∃ l', s :: l = l' ++ [b]
  after : ∃ r', r ++ [s] = d :: r'

theorem exists_between (s : Addr) (l r : List Addr) : ∃ b d, Between s l r b d := by
  obtain ⟨d, r', hr⟩ : ∃ d r', r ++ [s] = d :: r' := List.exists_cons_of_ne_nil (by simp)
  have hl := List.dropLast_append_getLast (List.cons_ne_nil s l)
  exact ⟨_, d, ⟨⟨_, hl.symm⟩, ⟨r', hr⟩⟩⟩

theorem Between.mem_before {l r : List Addr} (h : Between s l r b d) : b ∈ s :: l := by
  obtain ⟨l', hl⟩ := h.before
  rw [hl]
  simp

theorem Between.mem_after {l r : List Addr} (h : Between s l r b d) : d = s ∨ d ∈ r := by
  obtain ⟨r', hr⟩ := h.after
  have hd : d ∈ r ++ [s] := by
    rw [hr]
    exact List.mem_cons_self
  rcases List.mem_append.mp hd with hd | hd
  · exact Or.inr hd
  · exact Or.inl (List.mem_singleton.mp hd)

theorem isChain_neighbours_congr {nx' pv' : Addr → Option Addr} {xs : List Addr}
    (hnx : ∀ a ∈ xs.dropLast, nx' a = nx a) (hpv : ∀ a ∈ xs.tail, pv' a = pv a) :
    xs.IsChain (Neighbours nx' pv') ↔ xs.IsChain (Neighbours nx pv) := by
  induction xs with
  | nil => simp
  | cons x xs ih =>
    cases xs with
    | nil => simp
    | cons y xs =>
      have hxy : Neighbours nx' pv' x y ↔ Neighbours nx pv x y := by
        apply neighbours_congr
        · exact hnx x (by simp)
        · exact hpv y (by simp)
      rw [List.isChain_cons_cons, List.isChain_cons_cons, hxy, ih]
      · intro a ha
        apply hnx
        rw [List.dropLast_cons_cons]
        exact List.mem_cons_of_mem _ ha
      · intro a ha
        exact hpv a (List.mem_cons_of_mem _ ha)

/-- A chain through a position, taken apart there. -/
theorem Between.isChain_iff {R : Addr → Addr → Prop} {l r : List Addr} (h : Between s l r b d) :
    (s :: (l ++ r) ++ [s]).IsChain R ↔
      (s :: l).IsChain R ∧ R b d ∧ (r ++ [s]).IsChain R := by
  obtain ⟨l', hl⟩ := h.before
  obtain ⟨r', hr⟩ := h.after
  have heq : s :: (l ++ r) ++ [s] = l' ++ b :: d :: r' := by
    calc
      s :: (l ++ r) ++ [s] = (s :: l) ++ (r ++ [s]) := by simp
      _ = l' ++ b :: d :: r' := by rw [hl, hr]; simp
  rw [heq, List.isChain_split, List.isChain_cons_cons, hl, hr]

/-- The same chain with a node `p` in between. -/
theorem Between.isChain_insert_iff {R : Addr → Addr → Prop} {l r : List Addr}
    (h : Between s l r b d) :
    (s :: (l ++ p :: r) ++ [s]).IsChain R ↔
      (s :: l).IsChain R ∧ R b p ∧ R p d ∧ (r ++ [s]).IsChain R := by
  obtain ⟨l', hl⟩ := h.before
  obtain ⟨r', hr⟩ := h.after
  have heq : s :: (l ++ p :: r) ++ [s] = l' ++ b :: p :: d :: r' := by
    calc
      s :: (l ++ p :: r) ++ [s] = (s :: l) ++ p :: (r ++ [s]) := by simp
      _ = l' ++ b :: p :: d :: r' := by rw [hl, hr]; simp
  rw [heq, List.isChain_split, List.isChain_cons_cons, List.isChain_cons_cons, hl, hr]

theorem Ring.neighbours {l r : List Addr} (h : Ring nx pv s (l ++ r)) (hb : Between s l r b d) :
    Neighbours nx pv b d :=
  (hb.isChain_iff.mp h.chain).2.1

theorem Ring.neighbours_of_mem {l r : List Addr} (h : Ring nx pv s (l ++ p :: r))
    (hb : Between s l r b d) : Neighbours nx pv b p ∧ Neighbours nx pv p d := by
  obtain ⟨_, hbp, hpd, _⟩ := hb.isChain_insert_iff.mp h.chain
  exact ⟨hbp, hpd⟩

theorem chains_congr (nx' pv' : Addr → Option Addr) {l r : List Addr}
    (hn : (s :: (l ++ r)).Nodup) (hb : Between s l r b d)
    (hnx : ∀ a ∈ s :: (l ++ r), a ≠ b → nx' a = nx a)
    (hpv : ∀ a ∈ s :: (l ++ r), a ≠ d → pv' a = pv a) :
    ((s :: l).IsChain (Neighbours nx' pv') ↔ (s :: l).IsChain (Neighbours nx pv)) ∧
      ((r ++ [s]).IsChain (Neighbours nx' pv') ↔ (r ++ [s]).IsChain (Neighbours nx pv)) := by
  obtain ⟨l', hl⟩ := hb.before
  obtain ⟨r', hr⟩ := hb.after
  have hnl : (l' ++ [b]).Nodup := by
    rw [← hl]
    exact (List.nodup_append.mp (show (s :: l ++ r).Nodup from hn)).1
  have hnr : (d :: r').Nodup := by
    rw [← hr]
    have hperm : (s :: r).Perm (r ++ [s]) := (List.perm_append_singleton s r).symm
    exact hperm.nodup_iff.mp ((List.sublist_append_right l r).cons_cons s |>.nodup hn)
  have hdisj : ∀ a ∈ s :: l, a ∉ r := fun a ha har =>
    (List.nodup_append.mp (show (s :: l ++ r).Nodup from hn)).2.2 a ha a har rfl
  have hsub : ∀ a ∈ s :: l, a ∈ s :: (l ++ r) := fun a ha =>
    List.mem_append_left r (show a ∈ s :: l from ha)
  constructor
  · apply isChain_neighbours_congr
    · intro a ha
      have hal : a ∈ l' := by simpa [hl] using ha
      apply hnx a (hsub a (by rw [hl]; exact List.mem_append_left _ hal))
      rintro rfl
      exact (List.nodup_append.mp hnl).2.2 a hal a List.mem_cons_self rfl
    · intro a ha
      have hal : a ∈ l := ha
      apply hpv a (hsub a (List.mem_cons_of_mem _ hal))
      rintro rfl
      rcases hb.mem_after with he | he
      · exact (List.nodup_cons.mp hn).1 (he ▸ List.mem_append_left r hal)
      · exact hdisj a (List.mem_cons_of_mem _ hal) he
  · apply isChain_neighbours_congr
    · intro a ha
      have har : a ∈ r := by simpa using ha
      apply hnx a (List.mem_cons_of_mem _ (List.mem_append_right l har))
      rintro rfl
      exact hdisj a hb.mem_before har
    · intro a ha
      have har : a ∈ r' := by simpa [hr] using ha
      have hmem : a ∈ r ++ [s] := by
        rw [hr]
        exact List.mem_cons_of_mem _ har
      have hmem' : a ∈ s :: (l ++ r) := by
        rcases List.mem_append.mp hmem with h | h
        · exact List.mem_cons_of_mem _ (List.mem_append_right l h)
        · rw [List.mem_singleton.mp h]
          exact List.mem_cons_self
      apply hpv a hmem'
      rintro rfl
      exact (List.nodup_cons.mp hnr).1 har

/-- Linking a new node `p` between `b` and `d`, which may both be the sentinel. -/
theorem Ring.link {l r : List Addr} (h : Ring nx pv s (l ++ r)) (hb : Between s l r b d)
    (hp : p ∉ s :: (l ++ r)) :
    Ring (Function.update (Function.update nx p (some d)) b (some p))
      (Function.update (Function.update pv p (some b)) d (some p)) s (l ++ p :: r) := by
  have hbmem : b ∈ s :: (l ++ r) := List.mem_append_left r (show b ∈ s :: l from hb.mem_before)
  have hdmem : d ∈ s :: (l ++ r) := by
    rcases hb.mem_after with rfl | hd
    · exact List.mem_cons_self
    · exact List.mem_cons_of_mem _ (List.mem_append_right l hd)
  have hne : ∀ a ∈ s :: (l ++ r), a ≠ p := fun a ha he => hp (he ▸ ha)
  obtain ⟨hl, _, hr⟩ := hb.isChain_iff.mp h.chain
  obtain ⟨hl', hr'⟩ := chains_congr (Function.update (Function.update nx p (some d)) b (some p))
    (Function.update (Function.update pv p (some b)) d (some p)) h.nodup hb
    (fun a ha hab => by rw [Function.update_of_ne hab, Function.update_of_ne (hne a ha)])
    (fun a ha had => by rw [Function.update_of_ne had, Function.update_of_ne (hne a ha)])
  constructor
  · apply hb.isChain_insert_iff.mpr
    refine ⟨hl'.mpr hl, ⟨?_, ?_⟩, ⟨?_, ?_⟩, hr'.mpr hr⟩
    · rw [Function.update_self]
    · rw [Function.update_of_ne (hne d hdmem).symm, Function.update_self]
    · rw [Function.update_of_ne (hne b hbmem).symm, Function.update_self]
    · rw [Function.update_self]
  · have hperm : (s :: l ++ p :: r).Perm (p :: (s :: l ++ r)) := List.perm_middle
    exact hperm.nodup_iff.mpr (List.nodup_cons.mpr ⟨hp, h.nodup⟩)

/-- Unlinking `p` joins its two neighbours. -/
theorem Ring.unlink {l r : List Addr} (h : Ring nx pv s (l ++ p :: r)) (hb : Between s l r b d) :
    Ring (Function.update nx b (some d)) (Function.update pv d (some b)) s (l ++ r) := by
  have hperm : (s :: l ++ p :: r).Perm (p :: (s :: l ++ r)) := List.perm_middle
  have hn : (s :: (l ++ r)).Nodup := (List.nodup_cons.mp (hperm.nodup_iff.mp h.nodup)).2
  obtain ⟨hl, _, _, hr⟩ := hb.isChain_insert_iff.mp h.chain
  obtain ⟨hl', hr'⟩ := chains_congr (Function.update nx b (some d))
    (Function.update pv d (some b)) hn hb
    (fun a _ hab => Function.update_of_ne hab _ _) (fun a _ had => Function.update_of_ne had _ _)
  refine ⟨hb.isChain_iff.mpr ⟨hl'.mpr hl, ⟨?_, ?_⟩, hr'.mpr hr⟩, hn⟩
  · rw [Function.update_self]
  · rw [Function.update_self]

theorem Ring.congr {nx' pv' : Addr → Option Addr} (h : Ring nx pv s as)
    (hnx : ∀ a ∈ s :: as, nx' a = nx a) (hpv : ∀ a ∈ s :: as, pv' a = pv a) :
    Ring nx' pv' s as := by
  refine ⟨(isChain_neighbours_congr ?_ ?_).mpr h.chain, h.nodup⟩
  · intro a ha
    apply hnx
    rwa [List.dropLast_concat] at ha
  · intro a ha
    apply hpv
    rcases List.mem_append.mp (show a ∈ as ++ [s] from ha) with h | h
    · exact List.mem_cons_of_mem _ h
    · rw [List.mem_singleton.mp h]
      exact List.mem_cons_self

end Pointer
