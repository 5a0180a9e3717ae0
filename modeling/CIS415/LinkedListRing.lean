import CIS415.LinkedList
import CIS415.Lib.Linked

/-!
# The ring and the free list

`Shape` is the pointer invariant of a linked list: the nodes `as` form a doubly linked ring through
the sentinel, the nodes `fs` are the free list, and together with the nodes `held` by the operation
in progress they are exactly the nodes ever allocated, each once. Every lemma below says what one
function does to the link fields and that it keeps this invariant; the schedule of allocation
outcomes is arbitrary.
-/

namespace CIS415.LinkedList

open Pointer

variable {E : Type} {nodes nodes' : Heap (LLNode E)} {freel : Option Addr}
  {as fs held l r : List Addr} {a b d p : Addr}

def nextOf (nodes : Heap (LLNode E)) : Addr → Option Addr :=
  nodes.field LLNode.next

def prevOf (nodes : Heap (LLNode E)) : Addr → Option Addr :=
  nodes.field LLNode.prev

def elementOf (nodes : Heap (LLNode E)) : Addr → Option E :=
  nodes.field LLNode.element

/-- The fields of `nodes'` are those given, on the same allocated nodes as `nodes`. -/
structure Writes (nodes nodes' : Heap (LLNode E)) (nx pv : Addr → Option Addr)
    (el : Addr → Option E) : Prop where
  next : nextOf nodes' = nx
  prev : prevOf nodes' = pv
  element : elementOf nodes' = el
  brk : nodes'.brk = nodes.brk
  alloc : ∀ a, (nodes'.load a).isSome = (nodes.load a).isSome

theorem setNext_spec (nodes : Heap (LLNode E)) (hp : (nodes.load p).isSome) (v : Option Addr) :
    ∃ nodes', setNext nodes p v = some nodes' ∧
      Writes nodes nodes' (Function.update (nextOf nodes) p v) (prevOf nodes)
        (elementOf nodes) := by
  obtain ⟨n, hn⟩ := Option.isSome_iff_exists.mp hp
  obtain ⟨nodes', hstore, hload, hbrk⟩ := Heap.store_spec hn { n with next := v }
  refine ⟨nodes', by simp [setNext, hn, hstore], ?_, ?_, ?_, hbrk, Heap.isSome_update hn hload⟩
  · exact Heap.field_update hload LLNode.next
  · exact Heap.field_update_self hn hload rfl
  · exact Heap.field_update_self hn hload rfl

theorem setPrev_spec (nodes : Heap (LLNode E)) (hp : (nodes.load p).isSome) (v : Option Addr) :
    ∃ nodes', setPrev nodes p v = some nodes' ∧
      Writes nodes nodes' (nextOf nodes) (Function.update (prevOf nodes) p v)
        (elementOf nodes) := by
  obtain ⟨n, hn⟩ := Option.isSome_iff_exists.mp hp
  obtain ⟨nodes', hstore, hload, hbrk⟩ := Heap.store_spec hn { n with prev := v }
  refine ⟨nodes', by simp [setPrev, hn, hstore], ?_, ?_, ?_, hbrk, Heap.isSome_update hn hload⟩
  · exact Heap.field_update_self hn hload rfl
  · exact Heap.field_update hload LLNode.prev
  · exact Heap.field_update_self hn hload rfl

theorem setElement_spec (nodes : Heap (LLNode E)) (hp : (nodes.load p).isSome) (e : Option E) :
    ∃ nodes', setElement nodes p e = some nodes' ∧
      Writes nodes nodes' (nextOf nodes) (prevOf nodes)
        (Function.update (elementOf nodes) p e) := by
  obtain ⟨n, hn⟩ := Option.isSome_iff_exists.mp hp
  obtain ⟨nodes', hstore, hload, hbrk⟩ := Heap.store_spec hn { n with element := e }
  refine ⟨nodes', by simp [setElement, hn, hstore], ?_, ?_, ?_, hbrk,
    Heap.isSome_update hn hload⟩
  · exact Heap.field_update_self hn hload rfl
  · exact Heap.field_update_self hn hload rfl
  · exact Heap.field_update hload LLNode.element

theorem putEntry_spec (ll : LinkedList E) (hp : (ll.nodes.load p).isSome) :
    ∃ nodes', putEntry ll p = some { ll with nodes := nodes', freel := some p } ∧
      Writes ll.nodes nodes' (Function.update (nextOf ll.nodes) p ll.freel) (prevOf ll.nodes)
        (Function.update (elementOf ll.nodes) p none) := by
  obtain ⟨n₁, h₁, hw₁⟩ := setElement_spec ll.nodes hp none
  obtain ⟨n₂, h₂, hw₂⟩ := setNext_spec n₁ (by rw [hw₁.alloc]; exact hp) ll.freel
  refine ⟨n₂, by simp [putEntry, h₁, h₂], ?_, ?_, ?_, ?_, ?_⟩
  · rw [hw₂.next, hw₁.next]
  · rw [hw₂.prev, hw₁.prev]
  · rw [hw₂.element, hw₁.element]
  · rw [hw₂.brk, hw₁.brk]
  · intro a
    rw [hw₂.alloc, hw₁.alloc]

theorem link_spec (hb : (nodes.load b).isSome) (hp : (nodes.load p).isSome)
    (hd : (nodes.load d).isSome) :
    ∃ nodes', link nodes b p d = some nodes' ∧
      Writes nodes nodes' (Function.update (Function.update (nextOf nodes) p (some d)) b (some p))
        (Function.update (Function.update (prevOf nodes) p (some b)) d (some p))
        (elementOf nodes) := by
  obtain ⟨n₁, h₁, hw₁⟩ := setNext_spec nodes hp (some d)
  obtain ⟨n₂, h₂, hw₂⟩ := setPrev_spec n₁ (by rw [hw₁.alloc]; exact hp) (some b)
  obtain ⟨n₃, h₃, hw₃⟩ :=
    setPrev_spec n₂ (by rw [hw₂.alloc, hw₁.alloc]; exact hd) (some p)
  obtain ⟨n₄, h₄, hw₄⟩ :=
    setNext_spec n₃ (by rw [hw₃.alloc, hw₂.alloc, hw₁.alloc]; exact hb) (some p)
  refine ⟨n₄, by simp [link, h₁, h₂, h₃, h₄], ?_, ?_, ?_, ?_, ?_⟩
  · rw [hw₄.next, hw₃.next, hw₂.next, hw₁.next]
  · rw [hw₄.prev, hw₃.prev, hw₂.prev, hw₁.prev]
  · rw [hw₄.element, hw₃.element, hw₂.element, hw₁.element]
  · rw [hw₄.brk, hw₃.brk, hw₂.brk, hw₁.brk]
  · intro a
    rw [hw₄.alloc, hw₃.alloc, hw₂.alloc, hw₁.alloc]

/-- `unlink`, on a node that is not its own neighbour. -/
theorem unlink_spec (hbp : Neighbours (nextOf nodes) (prevOf nodes) b p)
    (hpd : Neighbours (nextOf nodes) (prevOf nodes) p d) (hne : b ≠ p) :
    ∃ nodes', unlink nodes p = some nodes' ∧
      Writes nodes nodes' (Function.update (nextOf nodes) b (some d))
        (Function.update (prevOf nodes) d (some b)) (elementOf nodes) := by
  obtain ⟨n, hn, hnext⟩ := Heap.load_of_field hpd.1
  have hprev : n.prev = some b := by
    rw [← Heap.field_of_load hn LLNode.prev]
    exact hbp.2
  obtain ⟨n₁, h₁, hw₁⟩ := setNext_spec nodes (Heap.isSome_of_field hbp.1) (some d)
  have hnext₁ : nextOf n₁ p = some d := by
    rw [hw₁.next, Function.update_of_ne hne.symm]
    exact hpd.1
  obtain ⟨m, hm, hmnext⟩ := Heap.load_of_field hnext₁
  have hmprev : m.prev = some b := by
    rw [← Heap.field_of_load hm LLNode.prev]
    change prevOf n₁ p = some b
    rw [hw₁.prev]
    exact hbp.2
  obtain ⟨n₂, h₂, hw₂⟩ := setPrev_spec n₁
    (by rw [hw₁.alloc]; exact Heap.isSome_of_field hpd.2) (some b)
  refine ⟨n₂, by simp [unlink, hn, hnext, hprev, h₁, hm, hmnext, hmprev, h₂], ?_, ?_, ?_, ?_, ?_⟩
  · rw [hw₂.next, hw₁.next]
  · rw [hw₂.prev, hw₁.prev]
  · rw [hw₂.element, hw₁.element]
  · rw [hw₂.brk, hw₁.brk]
  · intro a
    rw [hw₂.alloc, hw₁.alloc]

structure Shape (nodes : Heap (LLNode E)) (freel : Option Addr) (as fs held : List Addr) :
    Prop where
  ring : Ring (nextOf nodes) (prevOf nodes) sentinel as
  free : Seg (nextOf nodes) freel fs none
  cells : (sentinel :: (as ++ (fs ++ held))).Perm (List.range nodes.brk)
  alloc : ∀ a : ℕ, a < nodes.brk → (nodes.load a).isSome

theorem Shape.nodup (h : Shape nodes freel as fs held) :
    (sentinel :: (as ++ (fs ++ held))).Nodup :=
  h.cells.nodup_iff.mpr List.nodup_range

theorem Shape.isSome (h : Shape nodes freel as fs held)
    (ha : a ∈ sentinel :: (as ++ (fs ++ held))) : (nodes.load a).isSome :=
  h.alloc a (List.mem_range.mp (h.cells.mem_iff.mp ha))

/-- Writes that leave the links of the ring and of the free list alone keep the invariant. -/
theorem Shape.congr {nx pv : Addr → Option Addr} {el : Addr → Option E}
    (h : Shape nodes freel as fs held) (hw : Writes nodes nodes' nx pv el)
    (hring : Ring nx pv sentinel as) (hfree : Seg nx freel fs none) :
    Shape nodes' freel as fs held := by
  refine ⟨?_, ?_, ?_, ?_⟩
  · rw [hw.next, hw.prev]
    exact hring
  · rw [hw.next]
    exact hfree
  · rw [hw.brk]
    exact h.cells
  · intro a ha
    rw [hw.alloc]
    exact h.alloc a (hw.brk ▸ ha)

theorem Shape.setElement (h : Shape nodes freel as fs held) {el : Addr → Option E}
    (hw : Writes nodes nodes' (nextOf nodes) (prevOf nodes) el) :
    Shape nodes' freel as fs held :=
  h.congr hw h.ring h.free

theorem Shape.perm {as' fs' held' : List Addr} (h : Shape nodes freel as fs held)
    (hring : Ring (nextOf nodes) (prevOf nodes) sentinel as')
    {freel' : Option Addr} (hfree : Seg (nextOf nodes) freel' fs' none)
    (hp : (as' ++ (fs' ++ held')).Perm (as ++ (fs ++ held))) :
    Shape nodes freel' as' fs' held' :=
  ⟨hring, hfree, (hp.cons sentinel).trans h.cells, h.alloc⟩

theorem Shape.putEntry (ll : LinkedList E) (h : Shape ll.nodes ll.freel as fs (p :: held)) :
    ∃ nodes', putEntry ll p = some { ll with nodes := nodes', freel := some p } ∧
      Shape nodes' (some p) as (p :: fs) held ∧
      elementOf nodes' = Function.update (elementOf ll.nodes) p none := by
  obtain ⟨nodes', hput, hw⟩ := putEntry_spec ll (h.isSome (by simp : p ∈ _))
  have hn := h.nodup
  have hpas : p ∉ sentinel :: as := by
    intro hp
    have hn' := List.nodup_append.mp (show (sentinel :: as ++ (fs ++ p :: held)).Nodup from hn)
    exact hn'.2.2 p hp p (by simp) rfl
  have hpfs : p ∉ fs := by
    intro hp
    have hn' := (List.nodup_append.mp (show (sentinel :: as ++ (fs ++ p :: held)).Nodup from hn)).2.1
    exact (List.nodup_append.mp hn').2.2 p hp p (by simp) rfl
  refine ⟨nodes', hput, ?_, hw.element⟩
  refine ⟨?_, ?_, ?_, ?_⟩
  · rw [hw.next, hw.prev]
    apply h.ring.congr
    · intro a ha
      apply Function.update_of_ne
      intro he
      exact hpas (he ▸ ha)
    · intro a _
      rfl
  · rw [hw.next, seg_cons, Function.update_self, seg_update hpfs]
    exact ⟨rfl, h.free⟩
  · rw [hw.brk]
    have hmid : (fs ++ p :: held).Perm (p :: fs ++ held) := List.perm_middle
    exact ((hmid.symm.append_left as).cons sentinel).trans h.cells
  · intro a ha
    rw [hw.alloc]
    exact h.alloc a (hw.brk ▸ ha)

theorem nextOf_malloc (nodes : Heap (LLNode E)) : nextOf (nodes.malloc {}).2 = nextOf nodes :=
  nodes.field_malloc_none rfl

theorem prevOf_malloc (nodes : Heap (LLNode E)) : prevOf (nodes.malloc {}).2 = prevOf nodes :=
  nodes.field_malloc_none rfl

theorem elementOf_malloc (nodes : Heap (LLNode E)) :
    elementOf (nodes.malloc {}).2 = elementOf nodes :=
  nodes.field_malloc_none rfl

theorem Shape.malloc (h : Shape nodes freel as fs held) :
    Shape (nodes.malloc {}).2 freel as fs (nodes.brk :: held) := by
  constructor
  · rw [nextOf_malloc, prevOf_malloc]
    exact h.ring
  · rw [nextOf_malloc]
    exact h.free
  · have hperm : (sentinel :: (as ++ (fs ++ nodes.brk :: held))).Perm
        (nodes.brk :: sentinel :: (as ++ (fs ++ held))) := by
      have hmid : (sentinel :: (as ++ fs) ++ nodes.brk :: held).Perm
          (nodes.brk :: (sentinel :: (as ++ fs) ++ held)) := List.perm_middle
      simpa only [List.cons_append, List.append_assoc] using hmid
    rw [Heap.malloc_brk, List.range_succ]
    calc
      (sentinel :: (as ++ (fs ++ nodes.brk :: held))).Perm
          (nodes.brk :: sentinel :: (as ++ (fs ++ held))) := hperm
      List.Perm _ (nodes.brk :: List.range nodes.brk) := h.cells.cons nodes.brk
      List.Perm _ (List.range nodes.brk ++ [nodes.brk]) := (List.perm_append_singleton _ _).symm
  · intro a ha
    rw [Heap.malloc_brk] at ha
    by_cases he : a = nodes.brk
    · simp [he]
    · rw [Heap.malloc_load, Function.update_of_ne he]
      apply h.alloc
      omega

end CIS415.LinkedList
