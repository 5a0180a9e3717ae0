import CIS415.Lib.TreeHeap
import CIS415.TreeSet

/-!
# The nodes of treeset.c on the heap

The functions of the tree set on the level of pointers: a `TNode *` is an address or NULL, and the nodes
are cells of a heap, which are loaded, stored, allocated and freed. An access through NULL or to a cell
that is not allocated fails. `fuel` bounds the depth of a recursion and the length of a walk; a set uses
the number of cells that the heap has handed out.
-/

namespace CIS415.TreeSetHeap

open Pointer TreeSet

variable {E : Type}

structure Content (E : Type) where
  element : E
  balance : ℤ

abbrev Cell (E : Type) := TreeCell (Content E)

abbrev Nodes (E : Type) := Heap (Cell E)

def setBalance (b : ℤ) (c : Cell E) : Cell E :=
  c.setData ⟨c.data.element, b⟩

def setElement (x : E) (c : Cell E) : Cell E :=
  c.setData ⟨x, c.data.balance⟩

def newNode (alloc : Bool) (h : Nodes E) (element : E) : Option Addr × Nodes E :=
  if alloc then
    let (node, h) := h.malloc ⟨none, none, ⟨element, 0⟩⟩
    (some node, h)
  else (none, h)

def singleRotate (h : Nodes E) (root : Option Addr) (dir : Bool) : Option (Option Addr × Nodes E) := do
  let save := (← h.deref root).link (!dir)
  let h ← h.update root (TreeCell.setLink (!dir) ((← h.deref save).link dir))
  let h ← h.update save (TreeCell.setLink dir root)
  some (save, h)

def doubleRotate (h : Nodes E) (root : Option Addr) (dir : Bool) : Option (Option Addr × Nodes E) := do
  let n := (← h.deref root).link (!dir)
  let save := (← h.deref n).link dir
  let h ← h.update n (TreeCell.setLink dir ((← h.deref save).link (!dir)))
  let h ← h.update save (TreeCell.setLink (!dir) ((← h.deref root).link (!dir)))
  let h ← h.update root (TreeCell.setLink (!dir) save)
  let save := (← h.deref root).link (!dir)
  let h ← h.update root (TreeCell.setLink (!dir) ((← h.deref save).link dir))
  let h ← h.update save (TreeCell.setLink dir root)
  some (save, h)

def adjustBalance (h : Nodes E) (root : Option Addr) (dir : Bool) (bal : ℤ) : Option (Nodes E) := do
  let n := (← h.deref root).link dir
  let nn := (← h.deref n).link (!dir)
  let b := (← h.deref nn).data.balance
  let (rootBal, nBal) := if b = 0 then (0, 0) else if b = bal then (-bal, 0) else (0, bal)
  let h ← h.update n (setBalance nBal)
  let h ← h.update root (setBalance rootBal)
  h.update nn (setBalance 0)

def insertBalance (h : Nodes E) (root : Option Addr) (dir : Bool) : Option (Option Addr × Nodes E) := do
  let n := (← h.deref root).link dir
  let bal := sign dir
  if (← h.deref n).data.balance = bal then
    let h ← h.update n (setBalance 0)
    let h ← h.update root (setBalance 0)
    singleRotate h root (!dir)
  else
    let h ← adjustBalance h root dir bal
    doubleRotate h root (!dir)

/-- The statements of `insert` after its recursive call has been stored in `link[dir]`. -/
def insertRetrace (h : Nodes E) (root : Option Addr) (dir done : Bool) :
    Option (Option Addr × Bool × Nodes E) :=
  if done then some (root, done, h)
  else do
    let b := (← h.deref root).data.balance + sign dir
    let h ← h.update root (setBalance b)
    if b = 0 then some (root, true, h)
    else if b.natAbs > 1 then
      let (root, h) ← insertBalance h root dir
      some (root, true, h)
    else some (root, done, h)

def insert (cmp : E → E → ℤ) (alloc : Bool) (element : E) :
    ℕ → Nodes E → Option Addr → Bool → Option (Option Addr × Bool × Nodes E)
  | 0, _, _, _ => none
  | _ + 1, h, none, done =>
    let (root, h) := newNode alloc h element
    some (root, done, h)
  | fuel + 1, h, some root, done => do
    let c ← h.load root
    let dir := decide (cmp c.data.element element < 0)
    let (sub, done, h) ← insert cmp alloc element fuel h (c.link dir) done
    let h ← h.update (some root) (TreeCell.setLink dir sub)
    insertRetrace h (some root) dir done

def removeBalance (h : Nodes E) (root : Option Addr) (dir done : Bool) :
    Option (Option Addr × Bool × Nodes E) := do
  let n := (← h.deref root).link (!dir)
  let bal := sign dir
  let nb := (← h.deref n).data.balance
  if nb = -bal then
    let h ← h.update n (setBalance 0)
    let h ← h.update root (setBalance 0)
    let (root, h) ← singleRotate h root dir
    some (root, done, h)
  else if nb = bal then
    let h ← adjustBalance h root (!dir) (-bal)
    let (root, h) ← doubleRotate h root dir
    some (root, done, h)
  else
    let h ← h.update root (setBalance (-bal))
    let h ← h.update n (setBalance bal)
    let (root, h) ← singleRotate h root dir
    some (root, true, h)

def removeRetrace (h : Nodes E) (root : Option Addr) (dir done : Bool) :
    Option (Option Addr × Bool × Nodes E) :=
  if done then some (root, done, h)
  else do
    let b := (← h.deref root).data.balance - sign dir
    let h ← h.update root (setBalance b)
    if b.natAbs = 1 then some (root, true, h)
    else if b.natAbs > 1 then removeBalance h root dir done
    else some (root, done, h)

/-- `findMin` (`dir` 0) and `findMax` (`dir` 1). -/
def findEnd (dir : Bool) : ℕ → Nodes E → Option Addr → Option (Option Addr)
  | _, _, none => some none
  | 0, _, some _ => none
  | fuel + 1, h, some tree => do
    let c ← h.load tree
    if c.link dir = none then some (some tree) else findEnd dir fuel h (c.link dir)

def findMin (fuel : ℕ) (h : Nodes E) (tree : Option Addr) : Option (Option Addr) :=
  findEnd false fuel h tree

def findMax (fuel : ℕ) (h : Nodes E) (tree : Option Addr) : Option (Option Addr) :=
  findEnd true fuel h tree

/-- The statements of `remove` between the case of a free link and the recursive call: a match takes the
element of its heir, and the removal goes on with that. The loop that looks for the heir is that of
`findMax`. -/
def takeHeir (cmp : E → E → ℤ) (fuel : ℕ) (h : Nodes E) (root : Addr) (element : E) :
    Option (Nodes E × E) := do
  let c ← h.load root
  if cmp element c.data.element = 0 then do
    let heir ← h.deref (← findMax fuel h c.link0)
    let h ← h.update (some root) (setElement heir.data.element)
    some (h, heir.data.element)
  else some (h, element)

/-- The new root, the flag `*done`, the calls of the user function and the heap. -/
def remove (cmp : E → E → ℤ) (uf : Bool) :
    ℕ → Nodes E → Option Addr → E → Bool → Option (Option Addr × Bool × List E × Nodes E)
  | 0, _, _, _, _ => none
  | _ + 1, h, none, _, done => some (none, done, [], h)
  | fuel + 1, h, some root, element, done => do
    let c ← h.load root
    if cmp element c.data.element = 0 ∧ (c.link0 = none ∨ c.link1 = none) then
      let save := c.link (decide (c.link0 = none))
      let h ← h.free root
      some (save, done, if uf then [c.data.element] else [], h)
    else do
      let (h, element) ← takeHeir cmp fuel h root element
      let c ← h.load root
      let dir := decide (cmp c.data.element element < 0)
      let (sub, done, calls, h) ← remove cmp uf fuel h (c.link dir) element done
      let h ← h.update (some root) (TreeCell.setLink dir sub)
      let (root, done, h) ← removeRetrace h (some root) dir done
      some (root, done, calls, h)

def find (cmp : E → E → ℤ) (element : E) : ℕ → Nodes E → Option Addr → Option (Option Addr)
  | 0, _, _ => none
  | _ + 1, _, none => some none
  | fuel + 1, h, some tree => do
    let c ← h.load tree
    if cmp element c.data.element < 0 then find cmp element fuel h c.link0
    else if cmp element c.data.element > 0 then find cmp element fuel h c.link1
    else some (some tree)

def postpurge (uf : Bool) : ℕ → Nodes E → Option Addr → Option (List E × Nodes E)
  | 0, _, _ => none
  | _ + 1, h, none => some ([], h)
  | fuel + 1, h, some leaf => do
    let c ← h.load leaf
    let (calls0, h) ← postpurge uf fuel h c.link0
    let c ← h.load leaf
    let (calls1, h) ← postpurge uf fuel h c.link1
    let c ← h.load leaf
    let h ← h.free leaf
    some (calls0 ++ calls1 ++ if uf then [c.data.element] else [], h)

/-- `struct treeset` and the heap of its nodes. -/
structure State (E : Type) where
  nodes : Nodes E
  size : ℤ
  root : Option Addr
  cmp : E → E → ℤ

/-- More than the depth of any tree on the heap. -/
def State.fuel (ts : State E) : ℕ :=
  ts.nodes.brk + 1

def tsCreate (nodes : Nodes E) (cmpFunction : E → E → ℤ) : State E :=
  ⟨nodes, 0, none, cmpFunction⟩

def tsDestroy (ts : State E) (uf : Bool) : Option (List E × Nodes E) :=
  postpurge uf ts.fuel ts.nodes ts.root

def tsAdd (alloc : Bool) (ts : State E) (element : E) : Option (ℤ × State E) := do
  if (← find ts.cmp element ts.fuel ts.nodes ts.root) ≠ none then some (0, ts)
  else do
    let (root, _, nodes) ← insert ts.cmp alloc element ts.fuel ts.nodes ts.root false
    some (1, { ts with nodes := nodes, root := root, size := ts.size + 1 })

def tsClear (ts : State E) (uf : Bool) : Option (List E × State E) := do
  let (calls, nodes) ← postpurge uf ts.fuel ts.nodes ts.root
  some (calls, { ts with nodes := nodes, root := none, size := 0 })

def tsContains (ts : State E) (element : E) : Option ℤ := do
  some (if (← find ts.cmp element ts.fuel ts.nodes ts.root) ≠ none then 1 else 0)

/-- `ts_pollFirst` (`dir` 0) and `ts_pollLast` (`dir` 1): the status, the element stored through the
pointer, and the set. -/
def poll (dir : Bool) (ts : State E) : Option (ℤ × Option E × State E) := do
  let node ← findEnd dir ts.fuel ts.nodes ts.root
  if node = none then some (0, none, ts)
  else do
    let element := (← ts.nodes.deref node).data.element
    let (root, _, _, nodes) ← remove ts.cmp false ts.fuel ts.nodes ts.root element false
    some (1, some element, { ts with nodes := nodes, root := root })

def tsPollFirst (ts : State E) : Option (ℤ × Option E × State E) :=
  poll false ts

def tsPollLast (ts : State E) : Option (ℤ × Option E × State E) :=
  poll true ts

def tsRemove (ts : State E) (element : E) (uf : Bool) : Option (ℤ × List E × State E) := do
  if (← find ts.cmp element ts.fuel ts.nodes ts.root) = none then some (0, [], ts)
  else do
    let (root, _, calls, nodes) ← remove ts.cmp uf ts.fuel ts.nodes ts.root element false
    some (1, calls, { ts with nodes := nodes, root := root, size := ts.size - 1 })

def step (ts : State E) : Op E → Option (Ret E × State E)
  | .add e => do
    let (v, ts) ← tsAdd true ts e
    some (⟨v, none, []⟩, ts)
  | .remove e uf => do
    let (v, calls, ts) ← tsRemove ts e uf
    some (⟨v, none, calls⟩, ts)
  | .pollFirst => do
    let (v, e, ts) ← tsPollFirst ts
    some (⟨v, e, []⟩, ts)
  | .pollLast => do
    let (v, e, ts) ← tsPollLast ts
    some (⟨v, e, []⟩, ts)
  | .clear uf => do
    let (calls, ts) ← tsClear ts uf
    some (⟨0, none, calls⟩, ts)
  | .contains e => do
    let v ← tsContains ts e
    some (⟨v, none, []⟩, ts)

def run (nodes : Nodes E) (cmpFunction : E → E → ℤ) (ops : List (Op E)) :
    Option (List (Ret E) × State E) :=
  Machine.run step (tsCreate nodes cmpFunction) ops

end CIS415.TreeSetHeap
