import CIS415.Lib.Heap
import Mathlib.Data.Finset.Card

/-!
# How many cells a heap has

`malloc` adds a cell, `free` takes one away, and a store changes nothing about their number.
-/

namespace Pointer.Heap

variable {N : Type} {h h' : Heap N} {a : Addr} {n : N}

def cells (h : Heap N) : Finset Addr :=
  (Finset.range h.brk).filter fun a => (h.load a).isSome

theorem mem_cells : a ∈ h.cells ↔ (h.load a).isSome := by
  rw [cells, Finset.mem_filter, Finset.mem_range]
  constructor
  · exact And.right
  · intro ha
    obtain ⟨n, hn⟩ := Option.isSome_iff_exists.mp ha
    exact ⟨h.lt_brk hn, ha⟩

@[simp] theorem cells_empty : (empty : Heap N).cells = ∅ := rfl

theorem card_cells_malloc (h : Heap N) (n : N) : (h.malloc n).2.cells.card = h.cells.card + 1 := by
  have hnew : h.brk ∉ h.cells := by
    rw [mem_cells, load_brk]
    exact Bool.false_ne_true
  have hcells : (h.malloc n).2.cells = insert h.brk h.cells := by
    ext b
    rw [mem_cells, Finset.mem_insert, mem_cells, malloc_load]
    by_cases hb : b = h.brk
    · simp [hb]
    · simp [hb]
  rw [hcells, Finset.card_insert_of_notMem hnew]

theorem cells_store (hs : h.store a n = some h') : h'.cells = h.cells := by
  unfold store at hs
  split_ifs at hs with ha
  obtain ⟨m, hm⟩ := Option.isSome_iff_exists.mp ha
  ext b
  rw [mem_cells, mem_cells, ← Option.some.inj hs]
  exact Eq.congr_left (isSome_update hm rfl b)

theorem card_cells_free (hf : h.free a = some h') : h'.cells.card + 1 = h.cells.card := by
  unfold free at hf
  split_ifs at hf with ha
  have hcells : h'.cells = h.cells.erase a := by
    ext b
    rw [mem_cells, Finset.mem_erase, mem_cells, ← Option.some.inj hf]
    by_cases hb : b = a
    · simp [hb]
    · simp [hb]
  rw [hcells]
  exact Finset.card_erase_add_one (mem_cells.mpr ha)

end Pointer.Heap
