import Mathlib.Data.List.Nodup
import Mathlib.Logic.Function.Basic
import Mathlib.Data.List.Perm.Subperm

/-!
# A heap of nodes

Addresses are natural numbers and NULL is `none` of `Option Addr`. A heap hands out addresses in
increasing order. Loading from, storing to or freeing a cell that is not allocated fails, so a
program that returns `some` has made no invalid access.
-/

namespace Pointer

variable {N : Type}

abbrev Addr := ℕ

structure Heap (N : Type) where
  load : Addr → Option N
  brk : ℕ
  fresh : ∀ a : ℕ, brk ≤ a → load a = none

/-- The outcomes of the allocations still to come. -/
abbrev Schedule := ℕ → Bool

def Schedule.rest (sched : Schedule) : Schedule := fun n => sched (n + 1)

def Schedule.always : Schedule := fun _ => true

namespace Heap

def empty : Heap N := ⟨fun _ => none, 0, fun _ _ => rfl⟩

theorem lt_brk (h : Heap N) {a : ℕ} {n : N} (ha : h.load a = some n) : a < h.brk := by
  by_contra hn
  rw [h.fresh a (by omega)] at ha
  cases ha

def malloc (h : Heap N) (n : N) : Addr × Heap N :=
  (h.brk, ⟨Function.update h.load h.brk (some n), h.brk + 1, fun a ha => by
    rw [Function.update_of_ne (Nat.ne_of_gt ha)]
    exact h.fresh a (Nat.le_of_succ_le ha)⟩)

def store (h : Heap N) (a : Addr) (n : N) : Option (Heap N) :=
  if ha : (h.load a).isSome then
    some ⟨Function.update h.load a (some n), h.brk, fun b hb => by
      have hne : b ≠ a := by
        intro he
        subst b
        rw [h.fresh a hb] at ha
        cases ha
      rw [Function.update_of_ne hne]
      exact h.fresh b hb⟩
  else none

def free (h : Heap N) (a : Addr) : Option (Heap N) :=
  if (h.load a).isSome then
    some ⟨Function.update h.load a none, h.brk, fun b hb => by
      by_cases he : b = a
      · rw [he, Function.update_self]
      · rw [Function.update_of_ne he]
        exact h.fresh b hb⟩
  else none

@[simp] theorem malloc_fst (h : Heap N) (n : N) : (h.malloc n).1 = h.brk := rfl

@[simp] theorem malloc_load (h : Heap N) (n : N) :
    (h.malloc n).2.load = Function.update h.load h.brk (some n) := rfl

@[simp] theorem malloc_brk (h : Heap N) (n : N) : (h.malloc n).2.brk = h.brk + 1 := rfl

theorem load_brk (h : Heap N) : h.load h.brk = none :=
  h.fresh _ (Nat.le_refl _)

/-- Storing to an allocated cell succeeds and changes that cell only. -/
theorem store_spec {h : Heap N} {a : Addr} {m : N} (ha : h.load a = some m) (n : N) :
    ∃ h', h.store a n = some h' ∧ h'.load = Function.update h.load a (some n) ∧
      h'.brk = h.brk := by
  have hs : (h.load a).isSome := by rw [ha]; rfl
  unfold store
  rw [dif_pos hs]
  exact ⟨_, rfl, rfl, rfl⟩

theorem free_spec {h : Heap N} {a : Addr} {m : N} (ha : h.load a = some m) :
    ∃ h', h.free a = some h' ∧ h'.load = Function.update h.load a none ∧ h'.brk = h.brk := by
  have hs : (h.load a).isSome := by rw [ha]; rfl
  unfold free
  rw [if_pos hs]
  exact ⟨_, rfl, rfl, rfl⟩

/-- No cell outside `own` changes, new cells apart. -/
structure Frame (h h' : Heap N) (own : Addr → Prop) : Prop where
  load : ∀ a : ℕ, a < h.brk → ¬ own a → h'.load a = h.load a
  brk : h.brk ≤ h'.brk

variable {h h' h'' : Heap N} {own own' : Addr → Prop} {a : Addr}

theorem Frame.refl (h : Heap N) (own : Addr → Prop) : h.Frame h own :=
  ⟨fun _ _ _ => rfl, Nat.le_refl _⟩

theorem Frame.trans (h₁ : h.Frame h' own) (h₂ : h'.Frame h'' own')
    (hown : ∀ a : ℕ, a < h.brk → own' a → own a) : h.Frame h'' own := by
  refine ⟨?_, Nat.le_trans h₁.brk h₂.brk⟩
  intro a ha hno
  rw [h₂.load a (Nat.lt_of_lt_of_le ha h₁.brk) fun hown' => hno (hown a ha hown'), h₁.load a ha hno]

theorem Frame.mono (hf : h.Frame h' own) (hown : ∀ a, own a → own' a) : h.Frame h' own' :=
  ⟨fun a ha hno => hf.load a ha fun h => hno (hown a h), hf.brk⟩

theorem frame_update {v : Option N} (hl : h'.load = Function.update h.load a v)
    (hb : h'.brk = h.brk) : h.Frame h' (· = a) := by
  refine ⟨?_, Nat.le_of_eq hb.symm⟩
  intro b _ hne
  rw [hl, Function.update_of_ne hne]

theorem frame_malloc (h : Heap N) (n : N) (own : Addr → Prop) : h.Frame (h.malloc n).2 own := by
  refine ⟨?_, Nat.le_succ _⟩
  intro a ha _
  rw [malloc_load, Function.update_of_ne (Nat.ne_of_lt ha)]

variable {V : Type}

/-- The value of a field at an address, `none` when it is NULL or there is no cell. -/
def field (h : Heap N) (f : N → Option V) (a : Addr) : Option V :=
  (h.load a).bind f

theorem field_of_load {h : Heap N} {a : Addr} {n : N} (ha : h.load a = some n)
    (f : N → Option V) : h.field f a = f n := by
  rw [field, ha, Option.bind_some]

theorem load_of_field {h : Heap N} {f : N → Option V} {a : Addr} {v : V}
    (ha : h.field f a = some v) : ∃ n, h.load a = some n ∧ f n = some v :=
  Option.bind_eq_some_iff.mp ha

theorem isSome_of_field {h : Heap N} {f : N → Option V} {a : Addr} {v : V}
    (ha : h.field f a = some v) : (h.load a).isSome := by
  obtain ⟨n, hn, _⟩ := load_of_field ha
  rw [hn]
  rfl

theorem field_update {h h' : Heap N} {a : Addr} {n : N}
    (hl : h'.load = Function.update h.load a (some n)) (f : N → Option V) :
    h'.field f = Function.update (h.field f) a (f n) := by
  funext b
  by_cases hb : b = a
  · rw [hb, Function.update_self, field, hl, Function.update_self, Option.bind_some]
  · rw [Function.update_of_ne hb, field, hl, Function.update_of_ne hb]
    rfl

/-- Writing back the value a field had changes nothing. -/
theorem field_update_self {h h' : Heap N} {a : Addr} {m n : N} (ha : h.load a = some m)
    (hl : h'.load = Function.update h.load a (some n)) {f : N → Option V} (hf : f n = f m) :
    h'.field f = h.field f := by
  rw [field_update hl, hf, Function.update_eq_self_iff, field_of_load ha]

theorem field_malloc (h : Heap N) (n : N) (f : N → Option V) :
    (h.malloc n).2.field f = Function.update (h.field f) h.brk (f n) :=
  field_update (h.malloc_load n) f

theorem field_malloc_none (h : Heap N) {n : N} {f : N → Option V} (hf : f n = none) :
    (h.malloc n).2.field f = h.field f := by
  rw [field_malloc, hf, Function.update_eq_self_iff, field, load_brk]
  rfl

theorem isSome_update {h h' : Heap N} {a : Addr} {m n : N} (ha : h.load a = some m)
    (hl : h'.load = Function.update h.load a (some n)) (b : Addr) :
    (h'.load b).isSome = (h.load b).isSome := by
  by_cases hb : b = a
  · rw [hl, hb, Function.update_self, ha]
    rfl
  · rw [hl, Function.update_of_ne hb]

/-- Distinct allocated addresses are fewer than the cells handed out, which is what makes a step
bound by `brk` enough for a walk that repeats no node. -/
theorem length_le_brk (h : Heap N) {as : List Addr} (hn : as.Nodup)
    (ha : ∀ a ∈ as, (h.load a).isSome) : as.length ≤ h.brk := by
  have hsub : as ⊆ List.range h.brk := by
    intro a hmem
    obtain ⟨n, hload⟩ := Option.isSome_iff_exists.mp (ha a hmem)
    exact List.mem_range.mpr (h.lt_brk hload)
  have hlen := (List.subperm_of_subset hn hsub).length_le
  rwa [List.length_range] at hlen

end Heap

end Pointer
