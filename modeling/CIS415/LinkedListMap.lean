import CIS415.LinkedList
import CIS415.Lib.HeapMap

/-!
# Lists do not look at their elements

An operation on the list with other elements in the place of its own does what it does on the list.
-/

namespace CIS415

open Pointer

variable {E F : Type} (f : E → F)

def LLNode.map (n : LLNode E) : LLNode F :=
  ⟨n.next, n.prev, n.element.map f⟩

namespace LinkedList

def map (ll : LinkedList E) : LinkedList F :=
  ⟨ll.size, ll.freel, ll.nodes.map (LLNode.map f), ll.sched⟩

variable {f}

theorem setNext_map (nodes : Heap (LLNode E)) (p : Addr) (v : Option Addr) :
    setNext (nodes.map (LLNode.map f)) p v = (setNext nodes p v).map (Heap.map (LLNode.map f)) :=
  steps_map (nodes.load_map _ p) fun n => nodes.store_map (LLNode.map f) p { n with next := v }

theorem setPrev_map (nodes : Heap (LLNode E)) (p : Addr) (v : Option Addr) :
    setPrev (nodes.map (LLNode.map f)) p v = (setPrev nodes p v).map (Heap.map (LLNode.map f)) :=
  steps_map (nodes.load_map _ p) fun n => nodes.store_map (LLNode.map f) p { n with prev := v }

theorem setElement_map (nodes : Heap (LLNode E)) (p : Addr) (e : Option E) :
    setElement (nodes.map (LLNode.map f)) p (e.map f) =
      (setElement nodes p e).map (Heap.map (LLNode.map f)) :=
  steps_map (nodes.load_map _ p) fun n => nodes.store_map (LLNode.map f) p { n with element := e }

theorem putEntry_map (ll : LinkedList E) (p : Addr) :
    putEntry (ll.map f) p = (putEntry ll p).map (map f) :=
  steps_map (setElement_map ll.nodes p none) fun nodes =>
    steps_map (setNext_map nodes p ll.freel) fun _ => rfl

theorem refill_map (n : ℕ) (ll : LinkedList E) : refill n (ll.map f) = (refill n ll).map (map f) := by
  induction n generalizing ll with
  | zero => rfl
  | succ n ih =>
    rw [refill, refill]
    change (if ll.sched 0 then _ else _) = _
    split_ifs
    · have hmalloc := congrArg Prod.snd (ll.nodes.malloc_map (LLNode.map f) {})
      have hnew : (⟨ll.size, ll.freel, ((ll.map f).nodes.malloc {}).2, ll.sched.rest⟩ : LinkedList F) =
          map f ⟨ll.size, ll.freel, (ll.nodes.malloc {}).2, ll.sched.rest⟩ :=
        congrArg (fun nodes => (⟨ll.size, ll.freel, nodes, ll.sched.rest⟩ : LinkedList F)) hmalloc
      refine steps_map ?_ ih
      exact (congrArg (putEntry · ll.nodes.brk) hnew).trans (putEntry_map _ _)
    · rfl

theorem getEntry_map (ll : LinkedList E) :
    getEntry (ll.map f) = (getEntry ll).map fun r => (r.1, r.2.map f) := by
  have hfill : (if (ll.map f).freel = none then refill flIncrement (ll.map f) else some (ll.map f)) =
      (if ll.freel = none then refill flIncrement ll else some ll).map (map f) := by
    change (if ll.freel = none then _ else _) = _
    split_ifs
    · exact refill_map _ ll
    · rfl
  refine steps_map hfill ?_
  rintro ⟨size, freel, nodes, sched⟩
  cases freel with
  | none => rfl
  | some p => exact steps_map (nodes.load_map _ p) fun _ => rfl

theorem link_map (nodes : Heap (LLNode E)) (before p after : Addr) :
    link (nodes.map (LLNode.map f)) before p after =
      (link nodes before p after).map (Heap.map (LLNode.map f)) :=
  steps_map (setNext_map nodes p _) fun nodes => steps_map (setPrev_map nodes p _) fun nodes =>
    steps_map (setPrev_map nodes after _) fun nodes => setNext_map nodes before _

theorem place_map (ll : LinkedList E) (before p after : Addr) (e : Option E) :
    place (ll.map f) before p after (e.map f) =
      (place ll before p after e).map fun r => (r.1, r.2.map f) :=
  steps_map (setElement_map ll.nodes p e) fun nodes =>
    steps_map (link_map nodes before p after) fun _ => rfl

theorem llAdd_map (ll : LinkedList E) (e : Option E) :
    llAdd (ll.map f) (e.map f) = (llAdd ll e).map fun r => (r.1, r.2.map f) := by
  refine steps_map (getEntry_map ll) ?_
  rintro ⟨p, ll⟩
  cases p with
  | none => rfl
  | some p =>
    refine steps_map (ll.nodes.load_map _ sentinel) fun s => ?_
    refine step_map s.prev fun before => ?_
    exact place_map ll before p sentinel e

theorem unlink_map (nodes : Heap (LLNode E)) (p : Addr) :
    unlink (nodes.map (LLNode.map f)) p = (unlink nodes p).map (Heap.map (LLNode.map f)) := by
  refine steps_map (nodes.load_map _ p) fun n => ?_
  refine step_map n.prev fun before => ?_
  refine steps_map (setNext_map nodes before n.next) fun nodes => ?_
  refine steps_map (nodes.load_map _ p) fun n => ?_
  exact step_map n.next fun after => setPrev_map nodes after n.prev

theorem removeNode_map (ll : LinkedList E) (p : Addr) :
    removeNode (ll.map f) p =
      (removeNode ll p).map fun r => (r.1, r.2.1.map (Option.map f), r.2.2.map f) :=
  steps_map (ll.nodes.load_map _ p) fun _ => steps_map (unlink_map ll.nodes p) fun nodes =>
    steps_map (putEntry_map { ll with nodes := nodes } p) fun _ => rfl

theorem llRemoveFirst_map (ll : LinkedList E) :
    llRemoveFirst (ll.map f) =
      (llRemoveFirst ll).map fun r => (r.1, r.2.1.map (Option.map f), r.2.2.map f) := by
  refine steps_map (ll.nodes.load_map _ sentinel) fun s => ?_
  refine step_map s.next fun p => ?_
  rw [removeEnd, removeEnd]
  split_ifs
  · exact removeNode_map ll p
  · rfl

theorem llCreate_map (sched : Schedule) : llCreate sched = (llCreate sched).map (map f) := by
  rw [llCreate, llCreate]
  split_ifs
  · have hmalloc := (Heap.empty : Heap (LLNode E)).malloc_map (LLNode.map f)
      ⟨some sentinel, some sentinel, none⟩
    exact congrArg some (congrArg (fun r => (⟨0, none, r.2, sched.rest⟩ : LinkedList F)) hmalloc)
  · rfl

end LinkedList

end CIS415
