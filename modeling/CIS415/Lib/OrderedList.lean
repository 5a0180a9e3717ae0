import Mathlib.Algebra.Order.Ring.Int
import Mathlib.Data.List.TakeWhile

/-!
# Finite ordered sets as strictly increasing lists

A `Comparison` is a three-way comparison function with an integer result, as `strcmp` or the
callback of `qsort` has, together with the laws of a consistent total order. Elements that compare
equal need not be the same value. A finite set is a list that is strictly increasing under the
comparison; the operations below are the set operations on such lists.
-/

namespace OrderedList

variable {E : Type*}

structure Comparison (E : Type*) where
  cmp : E → E → ℤ
  swap : ∀ a b, cmp a b < 0 ↔ 0 < cmp b a
  trans : ∀ a b d, cmp a b ≤ 0 → cmp b d ≤ 0 → cmp a d ≤ 0

namespace Comparison

variable (c : Comparison E)

@[simp] theorem cmp_self (a : E) : c.cmp a a = 0 := by
  have h := c.swap a a
  omega

theorem eq_zero_comm {a b : E} : c.cmp a b = 0 ↔ c.cmp b a = 0 := by
  have h := c.swap a b
  have h' := c.swap b a
  omega

theorem lt_of_lt_of_le {a b d : E} (hab : c.cmp a b < 0) (hbd : c.cmp b d ≤ 0) :
    c.cmp a d < 0 := by
  by_contra hn
  have had := c.trans a b d hab.le hbd
  have hda : c.cmp d a ≤ 0 := by
    have h := c.swap a d
    have h' := c.swap d a
    omega
  have hba := c.trans b d a hbd hda
  have h := c.swap a b
  omega

theorem lt_of_le_of_lt {a b d : E} (hab : c.cmp a b ≤ 0) (hbd : c.cmp b d < 0) :
    c.cmp a d < 0 := by
  by_contra hn
  have had := c.trans a b d hab hbd.le
  have hda : c.cmp d a ≤ 0 := by
    have h := c.swap a d
    have h' := c.swap d a
    omega
  have hdb := c.trans d a b hda hab
  have h := c.swap b d
  omega

theorem lt_trans {a b d : E} (hab : c.cmp a b < 0) (hbd : c.cmp b d < 0) : c.cmp a d < 0 :=
  c.lt_of_lt_of_le hab hbd.le

/-- Strictly increasing lists: the representation of a finite set. -/
def Increasing (l : List E) : Prop :=
  l.Pairwise (fun a b => c.cmp a b < 0)

def Mem (e : E) (l : List E) : Prop :=
  ∃ x ∈ l, c.cmp e x = 0

instance (e : E) (l : List E) : Decidable (c.Mem e l) :=
  inferInstanceAs (Decidable (∃ x ∈ l, c.cmp e x = 0))

def insert (e : E) (l : List E) : List E :=
  l.takeWhile (fun x => decide (c.cmp x e < 0)) ++
    e :: l.dropWhile (fun x => decide (c.cmp x e < 0))

def erase (e : E) (l : List E) : List E :=
  l.filter (fun x => decide (c.cmp e x ≠ 0))

@[simp] theorem increasing_nil : c.Increasing [] := List.Pairwise.nil

@[simp] theorem not_mem_nil (e : E) : ¬ c.Mem e [] := by simp [Mem]

theorem increasing_append_cons {l r : List E} {x : E} :
    c.Increasing (l ++ x :: r) ↔ c.Increasing l ∧ c.Increasing r ∧
      (∀ a ∈ l, c.cmp a x < 0) ∧ (∀ b ∈ r, c.cmp x b < 0) := by
  unfold Increasing
  rw [List.pairwise_append, List.pairwise_cons]
  constructor
  · rintro ⟨hl, ⟨hxr, hr⟩, hlr⟩
    exact ⟨hl, hr, fun a ha => hlr a ha x (by simp), hxr⟩
  · rintro ⟨hl, hr, hlx, hxr⟩
    refine ⟨hl, ⟨hxr, hr⟩, fun a ha b hb => ?_⟩
    rcases List.mem_cons.mp hb with rfl | hb
    · exact hlx a ha
    · exact c.lt_trans (hlx a ha) (hxr b hb)

theorem mem_append_cons_of_lt {l r : List E} {x e : E} (hs : c.Increasing (l ++ x :: r))
    (he : c.cmp e x < 0) : c.Mem e (l ++ x :: r) ↔ c.Mem e l := by
  obtain ⟨_, _, _, hxr⟩ := c.increasing_append_cons.mp hs
  constructor
  · rintro ⟨y, hy, hey⟩
    rcases List.mem_append.mp hy with hy | hy
    · exact ⟨y, hy, hey⟩
    · rcases List.mem_cons.mp hy with rfl | hy
      · omega
      · have := c.lt_trans he (hxr y hy)
        omega
  · rintro ⟨y, hy, hey⟩
    exact ⟨y, List.mem_append_left _ hy, hey⟩

theorem mem_append_cons_of_gt {l r : List E} {x e : E} (hs : c.Increasing (l ++ x :: r))
    (he : c.cmp x e < 0) : c.Mem e (l ++ x :: r) ↔ c.Mem e r := by
  obtain ⟨_, _, hlx, _⟩ := c.increasing_append_cons.mp hs
  constructor
  · rintro ⟨y, hy, hey⟩
    rcases List.mem_append.mp hy with hy | hy
    · have := c.lt_trans (hlx y hy) he
      rw [c.eq_zero_comm] at hey
      omega
    · rcases List.mem_cons.mp hy with rfl | hy
      · rw [c.eq_zero_comm] at hey
        omega
      · exact ⟨y, hy, hey⟩
  · rintro ⟨y, hy, hey⟩
    exact ⟨y, List.mem_append_right _ (List.mem_cons_of_mem _ hy), hey⟩

@[simp] theorem insert_nil (e : E) : c.insert e [] = [e] := rfl

theorem insert_append_of_lt {l r : List E} {e : E} (h : ∀ x ∈ l, c.cmp x e < 0) :
    c.insert e (l ++ r) = l ++ c.insert e r := by
  have hl : ∀ x ∈ l, decide (c.cmp x e < 0) = true := fun x hx => by simpa using h x hx
  unfold insert
  rw [List.takeWhile_append_of_pos hl, List.dropWhile_append_of_pos hl, List.append_assoc]

theorem insert_append_cons_of_lt {l r : List E} {x e : E} (hs : c.Increasing (l ++ x :: r))
    (h : c.cmp x e < 0) : c.insert e (l ++ x :: r) = l ++ x :: c.insert e r := by
  obtain ⟨_, _, hlx, _⟩ := c.increasing_append_cons.mp hs
  have hall : ∀ y ∈ l ++ [x], c.cmp y e < 0 := by
    intro y hy
    rcases List.mem_append.mp hy with hy | hy
    · exact c.lt_trans (hlx y hy) h
    · rw [List.mem_singleton.mp hy]
      exact h
  simpa using c.insert_append_of_lt (r := r) hall

theorem insert_append_cons_of_not_lt {l r : List E} {x e : E} (h : ¬ c.cmp x e < 0) :
    c.insert e (l ++ x :: r) = c.insert e l ++ x :: r := by
  induction l with
  | nil => simp [insert, h]
  | cons a l ih =>
    by_cases ha : c.cmp a e < 0
    · have hcons : ∀ s, c.insert e (a :: s) = a :: c.insert e s := fun s =>
        c.insert_append_of_lt (l := [a]) (r := s) (by simpa using ha)
      rw [List.cons_append, hcons, hcons, ih, List.cons_append]
    · simp [insert, ha]

theorem mem_insert {e x : E} {l : List E} : x ∈ c.insert e l ↔ x = e ∨ x ∈ l := by
  have h := List.takeWhile_append_dropWhile (p := fun x => decide (c.cmp x e < 0)) (l := l)
  conv_rhs => rw [← h]
  simp only [insert, List.mem_append, List.mem_cons]
  tauto

theorem insert_perm (e : E) (l : List E) : (c.insert e l).Perm (e :: l) := by
  have h := List.takeWhile_append_dropWhile (p := fun x => decide (c.cmp x e < 0)) (l := l)
  conv_rhs => rw [← h]
  exact List.perm_middle

theorem length_insert (e : E) (l : List E) : (c.insert e l).length = l.length + 1 := by
  rw [(c.insert_perm e l).length_eq, List.length_cons]

theorem increasing_nodup {l : List E} (hs : c.Increasing l) : l.Nodup :=
  hs.imp fun {a b} hab heq => by
    rw [heq, c.cmp_self] at hab
    omega

/-- An increasing list is determined by its members. -/
theorem increasing_ext {l l' : List E} (hs : c.Increasing l) (hs' : c.Increasing l')
    (h : ∀ x, x ∈ l ↔ x ∈ l') : l = l' := by
  have hperm : l.Perm l' :=
    (List.perm_ext_iff_of_nodup (c.increasing_nodup hs) (c.increasing_nodup hs')).mpr h
  refine hperm.eq_of_pairwise ?_ hs hs'
  intro a b _ _ hab hba
  have := c.lt_trans hab hba
  rw [c.cmp_self] at this
  omega

/-- At most one element of an increasing list compares equal to `e`. -/
theorem increasing_eq_unique {l : List E} (hs : c.Increasing l) {e y z : E} (hy : y ∈ l)
    (hz : z ∈ l) (hey : c.cmp e y = 0) (hez : c.cmp e z = 0) : y = z := by
  obtain ⟨l₁, l₂, rfl⟩ := List.append_of_mem hy
  obtain ⟨_, _, hly, hyr⟩ := c.increasing_append_cons.mp hs
  have hye : c.cmp y e = 0 := c.eq_zero_comm.mp hey
  rcases List.mem_append.mp hz with hz | hz
  · have := c.lt_of_lt_of_le (hly z hz) hye.le
    rw [c.eq_zero_comm] at hez
    omega
  · rcases List.mem_cons.mp hz with rfl | hz
    · rfl
    · have := c.lt_of_le_of_lt hey.le (hyr z hz)
      omega

theorem insert_increasing {e : E} {l : List E} (hs : c.Increasing l) (he : ¬ c.Mem e l) :
    c.Increasing (c.insert e l) := by
  induction l with
  | nil => simp [Increasing]
  | cons a l ih =>
    obtain ⟨hal, hl⟩ := List.pairwise_cons.mp hs
    have hne : c.cmp e a ≠ 0 := fun h => he ⟨a, List.mem_cons_self, h⟩
    by_cases ha : c.cmp a e < 0
    · have hcons : c.insert e (a :: l) = a :: c.insert e l :=
        c.insert_append_of_lt (l := [a]) (r := l) (by simpa using ha)
      rw [hcons]
      refine List.pairwise_cons.mpr ⟨fun b hb => ?_, ih hl (fun ⟨x, hx, h⟩ =>
        he ⟨x, List.mem_cons_of_mem _ hx, h⟩)⟩
      rcases c.mem_insert.mp hb with rfl | hb
      · exact ha
      · exact hal b hb
    · have hea : c.cmp e a < 0 := by
        have := c.swap a e
        have := c.swap e a
        omega
      have hcons : c.insert e (a :: l) = e :: a :: l := by
        simp [insert, ha]
      rw [hcons]
      refine List.pairwise_cons.mpr ⟨fun b hb => ?_, hs⟩
      rcases List.mem_cons.mp hb with rfl | hb
      · exact hea
      · exact c.lt_trans hea (hal b hb)

theorem erase_increasing {e : E} {l : List E} (hs : c.Increasing l) : c.Increasing (c.erase e l) :=
  hs.filter _

theorem erase_eq_self {e : E} {l : List E} (h : ∀ x ∈ l, c.cmp e x ≠ 0) : c.erase e l = l := by
  unfold erase
  rw [List.filter_eq_self]
  simpa using h

theorem erase_append_cons_of_lt {l r : List E} {x e : E} (hs : c.Increasing (l ++ x :: r))
    (he : c.cmp e x < 0) : c.erase e (l ++ x :: r) = c.erase e l ++ x :: r := by
  obtain ⟨_, _, _, hxr⟩ := c.increasing_append_cons.mp hs
  have hr : c.erase e (x :: r) = x :: r := by
    apply c.erase_eq_self
    intro y hy
    rcases List.mem_cons.mp hy with rfl | hy
    · omega
    · have := c.lt_trans he (hxr y hy)
      omega
  conv_rhs => rw [← hr]
  exact List.filter_append _ _

theorem erase_append_cons_of_gt {l r : List E} {x e : E} (hs : c.Increasing (l ++ x :: r))
    (he : c.cmp x e < 0) : c.erase e (l ++ x :: r) = l ++ x :: c.erase e r := by
  obtain ⟨_, _, hlx, _⟩ := c.increasing_append_cons.mp hs
  have hne : ∀ y, c.cmp y e < 0 → c.cmp e y ≠ 0 := fun y hy h => by
    rw [c.eq_zero_comm] at h
    omega
  have hl : c.erase e l = l := c.erase_eq_self fun y hy => hne y (c.lt_trans (hlx y hy) he)
  have hx : c.erase e (x :: r) = x :: c.erase e r := by
    simp [erase, hne x he]
  calc
    c.erase e (l ++ x :: r) = c.erase e l ++ c.erase e (x :: r) := List.filter_append _ _
    _ = l ++ x :: c.erase e r := by rw [hl, hx]

/-- Erasing at the pivot removes the pivot and nothing else. -/
theorem erase_append_cons_of_eq {l r : List E} {x e : E} (hs : c.Increasing (l ++ x :: r))
    (he : c.cmp e x = 0) : c.erase e (l ++ x :: r) = l ++ r := by
  obtain ⟨_, _, hlx, hxr⟩ := c.increasing_append_cons.mp hs
  have hl : c.erase e l = l := c.erase_eq_self fun y hy h => by
    have := c.lt_of_lt_of_le (hlx y hy) (c.eq_zero_comm.mp he).le
    rw [c.eq_zero_comm] at h
    omega
  have hr : c.erase e r = r := c.erase_eq_self fun y hy => by
    have := c.lt_of_le_of_lt he.le (hxr y hy)
    omega
  have hx : c.erase e (x :: r) = c.erase e r := by simp [erase, he]
  calc
    c.erase e (l ++ x :: r) = c.erase e l ++ c.erase e (x :: r) := List.filter_append _ _
    _ = l ++ r := by rw [hl, hx, hr]

theorem length_erase {e : E} {l : List E} (hs : c.Increasing l) (hm : c.Mem e l) :
    (c.erase e l).length + 1 = l.length := by
  obtain ⟨x, hx, he⟩ := hm
  obtain ⟨l₁, l₂, rfl⟩ := List.append_of_mem hx
  rw [c.erase_append_cons_of_eq hs he]
  simp only [List.length_append, List.length_cons]
  omega

def flip : Comparison E where
  cmp a b := c.cmp b a
  swap a b := c.swap b a
  trans a b d hab hbd := c.trans d b a hbd hab

@[simp] theorem flip_cmp (a b : E) : c.flip.cmp a b = c.cmp b a := rfl

theorem gt_of_not_lt {a b : E} (hlt : ¬ c.cmp a b < 0) (hne : c.cmp a b ≠ 0) : c.cmp b a < 0 := by
  have h := c.swap b a
  omega

/-- `y` is the least element of `l` with the property `p`; the greatest one is the least one of
the opposite order. -/
structure Least (p : E → Prop) (l : List E) (y : E) : Prop where
  mem : y ∈ l
  holds : p y
  le : ∀ z ∈ l, p z → c.cmp y z ≤ 0

theorem mem_insert_iff {e x : E} {l : List E} : c.Mem x (c.insert e l) ↔ c.cmp x e = 0 ∨ c.Mem x l := by
  simp only [Mem, mem_insert, or_and_right, exists_or, exists_eq_left]

theorem mem_cons_iff {e x : E} {l : List E} : c.Mem x (e :: l) ↔ c.cmp x e = 0 ∨ c.Mem x l := by
  simp only [Mem, List.mem_cons, or_and_right, exists_or, exists_eq_left]

/-- The set after adding the elements up to the first that it has already, and whether there is none. -/
def addUntil : List E → List E → Bool × List E
  | l, [] => (true, l)
  | l, x :: xs => if c.Mem x l then (false, l) else addUntil (c.insert x l) xs

theorem addUntil_append (l xs ys : List E) : c.addUntil l (xs ++ ys) =
    if (c.addUntil l xs).1 then c.addUntil (c.addUntil l xs).2 ys else c.addUntil l xs := by
  induction xs generalizing l with
  | nil => rfl
  | cons x xs ih =>
    rw [List.cons_append, addUntil, addUntil]
    by_cases hx : c.Mem x l
    · rw [if_pos hx, if_pos hx]
      rfl
    · rw [if_neg hx, if_neg hx]
      exact ih _

theorem addUntil_increasing {l : List E} (hl : c.Increasing l) (xs : List E) :
    c.Increasing (c.addUntil l xs).2 := by
  induction xs generalizing l with
  | nil => exact hl
  | cons x xs ih =>
    rw [addUntil]
    by_cases hx : c.Mem x l
    · rw [if_pos hx]
      exact hl
    · rw [if_neg hx]
      exact ih (c.insert_increasing hl hx)

theorem mem_addUntil_of_mem {l : List E} {y : E} (hy : c.Mem y l) (xs : List E) :
    c.Mem y (c.addUntil l xs).2 := by
  induction xs generalizing l with
  | nil => exact hy
  | cons x xs ih =>
    rw [addUntil]
    by_cases hx : c.Mem x l
    · rw [if_pos hx]
      exact hy
    · rw [if_neg hx]
      exact ih (c.mem_insert_iff.mpr (Or.inr hy))

/-- After an element of `xs` that is in `l` or repeats an earlier one, no new one comes that `P` holds
of. -/
def NoNewAfterRepeat (P : E → Prop) (l xs : List E) : Prop :=
  ∀ pre x post, xs = pre ++ x :: post → c.Mem x l ∨ c.Mem x pre →
    ∀ y ∈ post, P y → c.Mem y l ∨ c.Mem y pre

variable {P : E → Prop}

theorem noNewAfterRepeat_cons {l xs : List E} {x : E} (hx : ¬ c.Mem x l) :
    c.NoNewAfterRepeat P l (x :: xs) ↔ c.NoNewAfterRepeat P (c.insert x l) xs := by
  have hmem : ∀ y pre, c.Mem y l ∨ c.Mem y (x :: pre) ↔ c.Mem y (c.insert x l) ∨ c.Mem y pre := by
    intro y pre
    rw [mem_cons_iff, mem_insert_iff]
    tauto
  constructor
  · intro h pre z post heq hz y hy hP
    exact (hmem y pre).mp (h (x :: pre) z post (by rw [heq]; rfl) ((hmem z pre).mpr hz) y hy hP)
  · intro h pre z post heq hz y hy hP
    cases pre with
    | nil =>
      obtain ⟨rfl, rfl⟩ := List.cons.inj heq
      exact absurd (hz.resolve_right (c.not_mem_nil x)) hx
    | cons w pre =>
      obtain ⟨rfl, rfl⟩ := List.cons.inj heq
      exact (hmem y pre).mpr (h pre z post rfl ((hmem z pre).mp hz) y hy hP)

/-- The elements that `P` holds of are all added just when no new one of them comes after a
repetition. -/
theorem addUntil_complete_iff {l xs : List E} :
    (∀ y ∈ xs, P y → c.Mem y (c.addUntil l xs).2) ↔ c.NoNewAfterRepeat P l xs := by
  induction xs generalizing l with
  | nil =>
    constructor
    · intro _ pre x post heq
      exact absurd heq.symm (by simp)
    · intro _ y hy
      exact absurd hy List.not_mem_nil
  | cons x xs ih =>
    rw [addUntil]
    by_cases hx : c.Mem x l
    · rw [if_pos hx]
      constructor
      · intro h pre z post heq _ y hy hP
        exact Or.inl (h y (by rw [heq]; simp [hy]) hP)
      · intro h y hy hP
        rcases List.mem_cons.mp hy with rfl | hy
        · exact hx
        · exact (h [] x xs rfl (Or.inl hx) y hy hP).resolve_right (c.not_mem_nil y)
    · rw [if_neg hx, noNewAfterRepeat_cons c hx, ← ih]
      constructor
      · intro h y hy
        exact h y (List.mem_cons_of_mem x hy)
      · intro h y hy hP
        rcases List.mem_cons.mp hy with rfl | hy
        · exact c.mem_addUntil_of_mem (c.mem_insert_iff.mpr (Or.inl (c.cmp_self y))) xs
        · exact h y hy hP

/-- All are added just when they are different and none of them is in `l`. -/
theorem addUntil_fst_iff {l xs : List E} : (c.addUntil l xs).1 = true ↔
    (∀ x ∈ xs, ¬ c.Mem x l) ∧ xs.Pairwise fun x y => c.cmp y x ≠ 0 := by
  induction xs generalizing l with
  | nil => simp [addUntil]
  | cons x xs ih =>
    rw [addUntil, List.pairwise_cons, List.forall_mem_cons]
    by_cases hx : c.Mem x l
    · rw [if_pos hx]
      exact iff_of_false Bool.false_ne_true fun h => h.1.1 hx
    · rw [if_neg hx, ih]
      simp only [mem_insert_iff, not_or]
      constructor
      · rintro ⟨hl, hxs⟩
        exact ⟨⟨hx, fun y hy => (hl y hy).2⟩, fun y hy => (hl y hy).1, hxs⟩
      · rintro ⟨⟨-, hl⟩, hne, hxs⟩
        exact ⟨fun y hy => ⟨hne y hy, hl y hy⟩, hxs⟩

/-- What has been added was not in the set when its turn came. -/
theorem exists_of_mem_addUntil {l xs : List E} {y : E} (hy : y ∈ (c.addUntil l xs).2) :
    y ∈ l ∨ ∃ pre post, xs = pre ++ y :: post ∧ (c.addUntil l pre).1 = true := by
  induction xs generalizing l with
  | nil => exact Or.inl hy
  | cons x xs ih =>
    rw [addUntil] at hy
    by_cases hx : c.Mem x l
    · rw [if_pos hx] at hy
      exact Or.inl hy
    · rw [if_neg hx] at hy
      rcases ih hy with hy | ⟨pre, post, rfl, hpre⟩
      · rcases c.mem_insert.mp hy with rfl | hy
        · exact Or.inr ⟨[], xs, rfl, rfl⟩
        · exact Or.inl hy
      · refine Or.inr ⟨x :: pre, post, rfl, ?_⟩
        rw [addUntil, if_neg hx]
        exact hpre

/-- What comes before any repetition is added. -/
theorem mem_addUntil_of_fst {l pre post : List E} {y : E} (hpre : (c.addUntil l pre).1 = true) :
    c.Mem y (c.addUntil l (pre ++ y :: post)).2 := by
  rw [addUntil_append, if_pos hpre, addUntil]
  by_cases hy : c.Mem y (c.addUntil l pre).2
  · rw [if_pos hy]
    exact hy
  · rw [if_neg hy]
    exact c.mem_addUntil_of_mem (c.mem_insert_iff.mpr (Or.inl (c.cmp_self y))) post

theorem mem_of_mem_addUntil {l xs : List E} {y : E} (hy : y ∈ (c.addUntil l xs).2) :
    y ∈ l ∨ y ∈ xs := by
  rcases c.exists_of_mem_addUntil hy with hy | ⟨pre, post, rfl, -⟩
  · exact Or.inl hy
  · exact Or.inr (List.mem_append_right pre List.mem_cons_self)

end Comparison

end OrderedList
