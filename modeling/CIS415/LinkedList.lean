import CIS415.Iterator
import CIS415.Lib.Heap
import CIS415.Lib.Machine

/-!
# The doubly linked list of linkedlist.c

The nodes live in a heap, so links are addresses and every rewiring is a store. The sentinel, which
in C is a member of the list structure, is the node at address 0. An element is a `void *`, with
`none` for NULL. Following a NULL link or touching a node that was not allocated fails. Nodes that
are removed go to the free list and are handed out again by `getEntry`.
-/

namespace CIS415

open Pointer

variable {E : Type}

/-- `struct llnode`; a field that was not yet assigned is `none`. -/
structure LLNode (E : Type) where
  next : Option Addr := none
  prev : Option Addr := none
  element : Option E := none

/-- `struct linkedlist`, with the heap of its nodes and the outcomes of the `malloc` calls to
come. -/
structure LinkedList (E : Type) where
  size : ℤ
  freel : Option Addr
  nodes : Heap (LLNode E)
  sched : Schedule

namespace LinkedList

def sentinel : Addr := 0

def flIncrement : ℕ := 128

def setNext (nodes : Heap (LLNode E)) (p : Addr) (v : Option Addr) : Option (Heap (LLNode E)) := do
  let n ← nodes.load p
  nodes.store p { n with next := v }

def setPrev (nodes : Heap (LLNode E)) (p : Addr) (v : Option Addr) : Option (Heap (LLNode E)) := do
  let n ← nodes.load p
  nodes.store p { n with prev := v }

def setElement (nodes : Heap (LLNode E)) (p : Addr) (e : Option E) :
    Option (Heap (LLNode E)) := do
  let n ← nodes.load p
  nodes.store p { n with element := e }

def putEntry (ll : LinkedList E) (p : Addr) : Option (LinkedList E) := do
  let nodes ← setElement ll.nodes p none
  let nodes ← setNext nodes p ll.freel
  some { ll with nodes := nodes, freel := some p }

/-- The loop of `getEntry`, which stops at the first failing `malloc`. -/
def refill : ℕ → LinkedList E → Option (LinkedList E)
  | 0, ll => some ll
  | n + 1, ll =>
    if ll.sched 0 then do
      let (p, nodes) := ll.nodes.malloc {}
      let ll ← putEntry { ll with nodes := nodes, sched := ll.sched.rest } p
      refill n ll
    else some { ll with sched := ll.sched.rest }

/-- The node handed out, or NULL. -/
def getEntry (ll : LinkedList E) : Option (Option Addr × LinkedList E) := do
  let ll ← (if ll.freel = none then refill flIncrement ll else some ll)
  match ll.freel with
  | none => some (none, ll)
  | some p => do
    let n ← ll.nodes.load p
    some (some p, { ll with freel := n.next })

/-- `ll_create`; the result is NULL when the first allocation of the schedule fails. -/
def llCreate (sched : Schedule) : Option (LinkedList E) :=
  if sched 0 then
    some ⟨0, none, (Heap.empty.malloc ⟨some sentinel, some sentinel, none⟩).2, sched.rest⟩
  else none

/-- The calls of the user function and the list. The loop runs at most `fuel` times. -/
def purgeFrom (uf : Bool) : ℕ → Addr → LinkedList E → Option (List (Option E) × LinkedList E)
  | 0, _, _ => none
  | fuel + 1, cur, ll =>
    if cur = sentinel then some ([], ll)
    else do
      let n ← ll.nodes.load cur
      let next ← n.next
      let ll ← putEntry ll cur
      let (calls, ll) ← purgeFrom uf fuel next ll
      some (if uf then n.element :: calls else calls, ll)

def purge (ll : LinkedList E) (uf : Bool) : Option (List (Option E) × LinkedList E) := do
  let s ← ll.nodes.load sentinel
  let cur ← s.next
  purgeFrom uf ll.nodes.brk cur ll

/-- The nodes freed by the loop of `ll_destroy`, and the heap. The loop runs at most `fuel` times. -/
def freeFrom : ℕ → Option Addr → Heap (LLNode E) → Option (List Addr × Heap (LLNode E))
  | _, none, nodes => some ([], nodes)
  | 0, some _, _ => none
  | fuel + 1, some p, nodes => do
    let n ← nodes.load p
    let nodes ← nodes.free p
    let (freed, nodes) ← freeFrom fuel n.next nodes
    some (p :: freed, nodes)

/-- The calls of the user function, the addresses freed in order, and the heap. The last `free` is that
of the list structure, the sentinel with it. -/
def llDestroy (ll : LinkedList E) (uf : Bool) :
    Option (List (Option E) × List Addr × Heap (LLNode E)) := do
  let (calls, ll) ← purge ll uf
  let (freed, nodes) ← freeFrom ll.nodes.brk ll.freel ll.nodes
  let nodes ← nodes.free sentinel
  some (calls, freed ++ [sentinel], nodes)

def link (nodes : Heap (LLNode E)) (before p after : Addr) : Option (Heap (LLNode E)) := do
  let nodes ← setNext nodes p (some after)
  let nodes ← setPrev nodes p (some before)
  let nodes ← setPrev nodes after (some p)
  setNext nodes before (some p)

/-- The statements that `ll_insert`, `ll_addFirst` and `ll_addLast` share once they have a node and
its place. -/
def place (ll : LinkedList E) (before p after : Addr) (element : Option E) :
    Option (ℤ × LinkedList E) := do
  let nodes ← setElement ll.nodes p element
  let nodes ← link nodes before p after
  some (1, { ll with nodes := nodes, size := ll.size + 1 })

def advance (nodes : Heap (LLNode E)) : ℕ → Addr → Option Addr
  | 0, p => some p
  | n + 1, p => do
    let nd ← nodes.load p
    advance nodes n (← nd.next)

def llAddFirst (ll : LinkedList E) (element : Option E) : Option (ℤ × LinkedList E) := do
  match ← getEntry ll with
  | (none, ll) => some (0, ll)
  | (some p, ll) => do
    let s ← ll.nodes.load sentinel
    place ll sentinel p (← s.next) element

def llAddLast (ll : LinkedList E) (element : Option E) : Option (ℤ × LinkedList E) := do
  match ← getEntry ll with
  | (none, ll) => some (0, ll)
  | (some p, ll) => do
    let s ← ll.nodes.load sentinel
    place ll (← s.prev) p sentinel element

def llAdd (ll : LinkedList E) (element : Option E) : Option (ℤ × LinkedList E) :=
  llAddLast ll element

/-- The loop runs while `n < index`, so not at all for a negative index. -/
def llInsert (ll : LinkedList E) (index : ℤ) (element : Option E) : Option (ℤ × LinkedList E) :=
  if index ≤ ll.size then do
    match ← getEntry ll with
    | (none, ll) => some (0, ll)
    | (some p, ll) => do
      let b ← advance ll.nodes index.toNat sentinel
      let n ← ll.nodes.load b
      place ll b p (← n.next) element
  else some (0, ll)

def llClear (ll : LinkedList E) (uf : Bool) : Option (List (Option E) × LinkedList E) := do
  let (calls, ll) ← purge ll uf
  let nodes ← setNext ll.nodes sentinel (some sentinel)
  let nodes ← setPrev nodes sentinel (some sentinel)
  some (calls, { ll with size := 0, nodes := nodes })

def nodeAt (ll : LinkedList E) (index : ℤ) : Option Addr := do
  let s ← ll.nodes.load sentinel
  advance ll.nodes index.toNat (← s.next)

/-- The status, the element stored through the pointer argument, and the list. -/
abbrev Outcome (E : Type) := ℤ × Option (Option E) × LinkedList E

def llGet (ll : LinkedList E) (index : ℤ) : Option (Outcome E) :=
  if index < ll.size then do
    let p ← nodeAt ll index
    let n ← ll.nodes.load p
    some (1, some n.element, ll)
  else some (0, none, ll)

/-- `ll_getFirst` and `ll_getLast`: the node at one end, unless it is the sentinel. -/
def getEnd (ll : LinkedList E) (p : Addr) : Option (Outcome E) :=
  if p ≠ sentinel then do
    let n ← ll.nodes.load p
    some (1, some n.element, ll)
  else some (0, none, ll)

def llGetFirst (ll : LinkedList E) : Option (Outcome E) := do
  let s ← ll.nodes.load sentinel
  getEnd ll (← s.next)

def llGetLast (ll : LinkedList E) : Option (Outcome E) := do
  let s ← ll.nodes.load sentinel
  getEnd ll (← s.prev)

def unlink (nodes : Heap (LLNode E)) (p : Addr) : Option (Heap (LLNode E)) := do
  let n ← nodes.load p
  let nodes ← setNext nodes (← n.prev) n.next
  let n ← nodes.load p
  setPrev nodes (← n.next) n.prev

/-- The statements that `ll_remove`, `ll_removeFirst` and `ll_removeLast` share once they have the
node. -/
def removeNode (ll : LinkedList E) (p : Addr) : Option (Outcome E) := do
  let n ← ll.nodes.load p
  let nodes ← unlink ll.nodes p
  let ll ← putEntry { ll with nodes := nodes } p
  some (1, some n.element, { ll with size := ll.size - 1 })

def llRemove (ll : LinkedList E) (index : ℤ) : Option (Outcome E) :=
  if index < ll.size then do removeNode ll (← nodeAt ll index)
  else some (0, none, ll)

def removeEnd (ll : LinkedList E) (p : Addr) : Option (Outcome E) :=
  if p ≠ sentinel then removeNode ll p else some (0, none, ll)

def llRemoveFirst (ll : LinkedList E) : Option (Outcome E) := do
  let s ← ll.nodes.load sentinel
  removeEnd ll (← s.next)

def llRemoveLast (ll : LinkedList E) : Option (Outcome E) := do
  let s ← ll.nodes.load sentinel
  removeEnd ll (← s.prev)

def llSet (ll : LinkedList E) (index : ℤ) (element : Option E) : Option (Outcome E) :=
  if index < ll.size then do
    let p ← nodeAt ll index
    let n ← ll.nodes.load p
    let nodes ← setElement ll.nodes p element
    some (1, some n.element, { ll with nodes := nodes })
  else some (0, none, ll)

def llSize (ll : LinkedList E) : ℤ :=
  ll.size

def elementsFrom (nodes : Heap (LLNode E)) : ℕ → Addr → Option (List (Option E))
  | 0, _ => some []
  | n + 1, p => do
    let nd ← nodes.load p
    let rest ← elementsFrom nodes n (← nd.next)
    some (nd.element :: rest)

/-- The outer option is failure, the inner one a NULL result; the `malloc` takes the next outcome of
the schedule. -/
def genArray (ll : LinkedList E) : Option (Option (List (Option E)) × LinkedList E) :=
  if 0 < ll.size then
    if ll.sched 0 then do
      let s ← ll.nodes.load sentinel
      let tmp ← elementsFrom ll.nodes ll.size.toNat (← s.next)
      some (some tmp, { ll with sched := ll.sched.rest })
    else some (none, { ll with sched := ll.sched.rest })
  else some (none, ll)

def llToArray (ll : LinkedList E) : Option (Option (List (Option E) × ℤ) × LinkedList E) := do
  match ← genArray ll with
  | (some tmp, ll) => some (some (tmp, ll.size), ll)
  | (none, ll) => some (none, ll)

inductive Op (E : Type) where
  | add (element : Option E)
  | addFirst (element : Option E)
  | addLast (element : Option E)
  | insert (index : ℤ) (element : Option E)
  | remove (index : ℤ)
  | removeFirst
  | removeLast
  | set (index : ℤ) (element : Option E)
  | get (index : ℤ)
  | getFirst
  | getLast
  | clear (uf : Bool)
  | size
  | toArray

/-- What a call hands back: its value, the element stored through a pointer argument, the array and
its reported length, and the calls of the user function. -/
structure Ret (E : Type) where
  value : ℤ := 0
  element : Option (Option E) := none
  array : Option (List (Option E) × ℤ) := none
  calls : List (Option E) := []

def ofStatus (r : ℤ × LinkedList E) : Ret E × LinkedList E :=
  ({ value := r.1 }, r.2)

def ofOutcome (r : Outcome E) : Ret E × LinkedList E :=
  ({ value := r.1, element := r.2.1 }, r.2.2)

def step (ll : LinkedList E) : Op E → Option (Ret E × LinkedList E)
  | .add e => (llAdd ll e).map ofStatus
  | .addFirst e => (llAddFirst ll e).map ofStatus
  | .addLast e => (llAddLast ll e).map ofStatus
  | .insert i e => (llInsert ll i e).map ofStatus
  | .remove i => (llRemove ll i).map ofOutcome
  | .removeFirst => (llRemoveFirst ll).map ofOutcome
  | .removeLast => (llRemoveLast ll).map ofOutcome
  | .set i e => (llSet ll i e).map ofOutcome
  | .get i => (llGet ll i).map ofOutcome
  | .getFirst => (llGetFirst ll).map ofOutcome
  | .getLast => (llGetLast ll).map ofOutcome
  | .clear uf => (llClear ll uf).map fun r => ({ calls := r.1 }, r.2)
  | .size => some ({ value := llSize ll }, ll)
  | .toArray => (llToArray ll).map fun r => ({ array := r.1 }, r.2)

def run (sched : Schedule) (ops : List (Op E)) : Option (List (Ret E) × LinkedList E) := do
  let ll ← llCreate sched
  Machine.run step ll ops

end LinkedList

end CIS415
