import CIS415.Lib.Heap

/-!
# Programs that do not look at the data

A program on a heap that only moves data about does the same on the heap with all data replaced. Each
step commutes with the replacement, and a sequence of steps does when its steps do.
-/

namespace Pointer

variable {N M : Type}

namespace Heap

def map (f : N → M) (h : Heap N) : Heap M :=
  ⟨fun a => (h.load a).map f, h.brk, fun a ha => by rw [h.fresh a ha, Option.map_none]⟩

theorem ext_load {h h' : Heap N} (hload : h.load = h'.load) (hbrk : h.brk = h'.brk) : h = h' := by
  cases h
  cases h'
  cases hload
  cases hbrk
  rfl

theorem load_map (f : N → M) (h : Heap N) (a : Addr) : (h.map f).load a = (h.load a).map f := rfl

theorem map_update (f : N → M) (load : Addr → Option N) (a : Addr) (v : Option N) :
    (fun b => (Function.update load a v b).map f) =
      Function.update (fun b => (load b).map f) a (v.map f) := by
  funext b
  by_cases hb : b = a
  · rw [hb, Function.update_self, Function.update_self]
  · rw [Function.update_of_ne hb, Function.update_of_ne hb]

theorem malloc_map (f : N → M) (h : Heap N) (n : N) :
    (h.map f).malloc (f n) = ((h.malloc n).1, (h.malloc n).2.map f) :=
  Prod.ext rfl (ext_load (map_update f h.load h.brk (some n)).symm rfl)

theorem store_map (f : N → M) (h : Heap N) (a : Addr) (n : N) :
    (h.map f).store a (f n) = (h.store a n).map (map f) := by
  have hsome : ((h.map f).load a).isSome = (h.load a).isSome := by rw [load_map, Option.isSome_map]
  by_cases hs : (h.load a).isSome
  · rw [store, store, dif_pos hs, dif_pos (hsome.trans hs)]
    exact congrArg some (ext_load (map_update f h.load a (some n)).symm rfl)
  · rw [store, store, dif_neg hs, dif_neg (by rwa [hsome])]
    rfl

end Heap

/-- Two steps that commute with a replacement commute with it one after the other. -/
theorem steps_map {A B C D : Type} {f : A → B} {g : C → D} {x : Option A} {x' : Option B}
    {k : A → Option C} {k' : B → Option D} (hx : x' = x.map f)
    (hk : ∀ a, k' (f a) = (k a).map g) : x' >>= k' = (x >>= k).map g := by
  subst hx
  cases x with
  | none => rfl
  | some a => exact hk a

theorem step_map {A C D : Type} {g : C → D} (x : Option A) {k : A → Option C} {k' : A → Option D}
    (hk : ∀ a, k' a = (k a).map g) : x >>= k' = (x >>= k).map g :=
  steps_map (f := id) (congrFun Option.map_id.symm x) hk

end Pointer
