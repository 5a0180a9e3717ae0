import CIS415.Lib.Heap
import Mathlib.Data.Int.Notation

/-!
# The process queues of thv3.c

The two queues are linked lists of nodes on the heap. `next` of the last node of a queue is whatever was
stored in it last. An access through NULL or to a node that is not allocated has no result.
-/

namespace CIS415.Thv3

open Pointer

structure Pr where
  pid : ℤ
  next : Option Addr
  status : ℤ
deriving DecidableEq

structure Queue where
  head : Option Addr
  tail : Option Addr
  size : ℤ
deriving DecidableEq

def enqueue (heap : Heap Pr) (queue : Option Queue) (process : Option Addr) :
    Option (Heap Pr × Queue) := do
  -- The branch for a NULL `queue` stores through it.
  let queue ← queue
  let tail ← queue.tail
  let node ← heap.load tail
  let heap ← heap.store tail { node with next := process }
  some (heap, { queue with tail := process, size := queue.size + 1 })

def deq (heap : Heap Pr) (queue : Queue) : Option (Option Addr × Queue) :=
  if queue.head = none then some (none, queue)
  else if queue.head = queue.tail then some (queue.head, ⟨none, none, queue.size - 1⟩)
  else do
    let cur ← queue.head
    let node ← heap.load cur
    some (some cur, { queue with head := node.next, size := queue.size - 1 })

inductive QueueName where
  | rQ
  | wQ
deriving DecidableEq

structure State where
  heap : Heap Pr
  queue : QueueName → Queue

def initial (heap : Heap Pr) : State :=
  ⟨heap, fun _ => ⟨none, none, 0⟩⟩

/-- `assign` is any store to a node, such as that of its status or of its fields after `malloc`. -/
inductive Call where
  | enqueue (q : QueueName) (process : Addr)
  | deq (q : QueueName)
  | assign (process : Addr) (node : Pr)
deriving DecidableEq

/-- The pointer returned, and the sizes of the queues after the call. -/
structure Result where
  node : Option Addr
  size : QueueName → ℤ

def State.sizes (s : State) (q : QueueName) : ℤ :=
  (s.queue q).size

def step (s : State) : Call → Option (Result × State)
  | .enqueue q process => do
    let (heap, queue) ← enqueue s.heap (some (s.queue q)) (some process)
    let s : State := ⟨heap, Function.update s.queue q queue⟩
    some (⟨none, s.sizes⟩, s)
  | .deq q => do
    let (node, queue) ← deq s.heap (s.queue q)
    let s : State := ⟨s.heap, Function.update s.queue q queue⟩
    some (⟨node, s.sizes⟩, s)
  | .assign process node => do
    let heap ← s.heap.store process node
    let s : State := ⟨heap, s.queue⟩
    some (⟨none, s.sizes⟩, s)

def bufSize : ℕ := 1024

/-- `deadch` and `killcount`. -/
structure Dead where
  deadch : List ℤ
  killcount : ℕ
  length_deadch : deadch.length = bufSize
  killcount_le : killcount ≤ bufSize

/-- The pids in `deadch[0..killcount-1]`. -/
def Dead.pids (d : Dead) : List ℤ :=
  d.deadch.take d.killcount

/-- The loop over `deadch`, which may set `f`. -/
def findDead (heap : Heap Pr) (node : Option Addr) (pids : List ℤ) (f : Bool) : Option Bool :=
  pids.foldlM (fun f pid => do
    let process ← heap.load (← node)
    some (if pid = process.pid then true else f)) f

def freeNode (heap : Heap Pr) : Option Addr → Option (Heap Pr)
  | none => some heap
  | some a => heap.free a

def reapBody (d : Dead) (f : Bool) (s : State) : Option (Bool × State) := do
  let (node, rQ) ← deq s.heap (s.queue .rQ)
  let s : State := ⟨s.heap, Function.update s.queue .rQ rQ⟩
  let f ← findDead s.heap node d.pids f
  if f = false then do
    let (heap, wQ) ← enqueue s.heap (some (s.queue .wQ)) node
    some (f, ⟨heap, Function.update s.queue .wQ wQ⟩)
  else do
    let heap ← freeNode s.heap node
    some (f, ⟨heap, s.queue⟩)

/-- The reaping loop, whose condition is evaluated at most `fuel` times. -/
def reapLoop (d : Dead) : ℕ → ℕ → Bool → State → Option State
  | 0, _, _, _ => none
  | fuel + 1, i, f, s =>
    if (i : ℤ) < (s.queue .rQ).size then do
      let (f, s) ← reapBody d f s
      reapLoop d fuel (i + 1) f s
    else some s

def reap (d : Dead) (s : State) : Option State :=
  reapLoop d ((s.queue .rQ).size.toNat + 1) 0 false s

end CIS415.Thv3
