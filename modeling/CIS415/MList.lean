import CIS415.MEntry
import CIS415.Lib.Machine

/-!
# The hash table of mlist.c

The nodes of the buckets live in a heap. A chain ends in a node whose `next_node` is NULL and whose
entry does not count: `ml_add` stores the entry in that node and links a new one behind it. The file
has a global `size`, which `ml_create` uses and `resize` overwrites. Reading a field that was never
assigned, or an index outside the table, fails.
-/

namespace CIS415

open Pointer

/-- `struct mlistnode`; a field that was not yet assigned is `none`. -/
structure Bucket where
  next_node : Option Addr
  entry : Option MEntryPtr := none
  in_val : Option ℤ := none

/-- `struct mlist`; `hash` is `none` for NULL. -/
structure MList where
  size : ℕ
  hash : Option (List Addr)

namespace MList

/-- The nodes, the global `size` and the outcomes of the `malloc` and `calloc` calls to come. -/
structure Mem where
  nodes : Heap Bucket
  size : ℕ
  sched : Schedule

def buckets : ℕ := 20

def Mem.initial (sched : Schedule) : Mem :=
  ⟨Heap.empty, buckets, sched⟩

def setNext (nodes : Heap Bucket) (p : Addr) (v : Option Addr) : Option (Heap Bucket) := do
  let n ← nodes.load p
  nodes.store p { n with next_node := v }

def setEntry (nodes : Heap Bucket) (p : Addr) (e : MEntryPtr) : Option (Heap Bucket) := do
  let n ← nodes.load p
  nodes.store p { n with entry := some e }

def setInVal (nodes : Heap Bucket) (p : Addr) (v : ℤ) : Option (Heap Bucket) := do
  let n ← nodes.load p
  nodes.store p { n with in_val := some v }

/-- The loop of `ml_create`; the result of `malloc` is dereferenced unchecked. -/
def createBuckets : ℕ → Mem → Option (List Addr × Mem)
  | 0, m => some ([], m)
  | n + 1, m =>
    if m.sched 0 then do
      let (p, nodes) := m.nodes.malloc { next_node := none, in_val := some 0 }
      let (ps, m) ← createBuckets n { m with nodes := nodes, sched := m.sched.rest }
      some (p :: ps, m)
    else none

def mlCreate (m : Mem) : Option (Option MList × Mem) :=
  if m.sched 0 then
    if m.sched.rest 0 then do
      let (hash, m') ← createBuckets m.size { m with sched := m.sched.rest.rest }
      some (some ⟨m.size, some hash⟩, m')
    else some (some ⟨m.size, none⟩, { m with sched := m.sched.rest.rest })
  else some (none, { m with sched := m.sched.rest })

def bucketAt (ml : MList) (h : ℕ) : Option Addr := do
  let hash ← ml.hash
  hash[h]?

/-- The loop of `ml_lookup`, which runs at most `fuel` times; the inner `none` is NULL. -/
def lookupFrom (nodes : Heap Bucket) (me : MEntry) : ℕ → Addr → Option (Option MEntryPtr)
  | 0, _ => none
  | fuel + 1, p => do
    let n ← nodes.load p
    match n.next_node with
    | none => some none
    | some q => do
      let e ← n.entry
      if MEntry.meCompare e.deref me = 0 then some (some e) else lookupFrom nodes me fuel q

def mlLookup (m : Mem) (ml : MList) (me : MEntry) : Option (Option MEntryPtr) := do
  let p ← bucketAt ml (MEntry.meHash me ml.size)
  lookupFrom m.nodes me m.nodes.brk p

/-- The node with a NULL link at the end of the chain, and the number of steps to it. -/
def tailFrom (nodes : Heap Bucket) : ℕ → Addr → Option (Addr × ℕ)
  | 0, _ => none
  | fuel + 1, p => do
    let n ← nodes.load p
    match n.next_node with
    | none => some (p, 0)
    | some q => do
      let (cur, k) ← tailFrom nodes fuel q
      some (cur, k + 1)

/-- The body of the inner loop of `resize`: the node `data` moves to its bucket of `new_ml`, whose
first node tells by `in_val` whether the bucket holds no node, one, or more. -/
def rehashNode (nodes : Heap Bucket) (new_ml : MList) (size : ℕ) (data : Addr) :
    Option (MList × Heap Bucket) := do
  let nodes ← setNext nodes data none
  let n ← nodes.load data
  let e ← n.entry
  let hashvalue := MEntry.meHash e.deref size
  let first ← bucketAt new_ml hashvalue
  let (add_data, _) ← tailFrom nodes nodes.brk first
  let b ← nodes.load first
  let v ← b.in_val
  if v = 0 then do
    let hash ← new_ml.hash
    let nodes ← setInVal nodes data 1
    some ({ new_ml with hash := some (hash.set hashvalue data) }, nodes)
  else if v = 1 then do
    let nodes ← setNext nodes first (some data)
    let nodes ← setInVal nodes first 2
    some (new_ml, nodes)
  else do
    let nodes ← setNext nodes add_data (some data)
    some (new_ml, nodes)

/-- The inner loop of `resize`, which stops at the node with a NULL link. -/
def rehashChain (size : ℕ) : ℕ → Addr → MList → Heap Bucket → Option (MList × Heap Bucket)
  | 0, _, _, _ => none
  | fuel + 1, data, new_ml, nodes => do
    let n ← nodes.load data
    match n.next_node with
    | none => some (new_ml, nodes)
    | some new_data => do
      let (new_ml, nodes) ← rehashNode nodes new_ml size data
      rehashChain size fuel new_data new_ml nodes

def rehashAll (size : ℕ) : List Addr → MList → Heap Bucket → Option (MList × Heap Bucket)
  | [], new_ml, nodes => some (new_ml, nodes)
  | p :: ps, new_ml, nodes => do
    let (new_ml, nodes) ← rehashChain size nodes.brk p new_ml nodes
    rehashAll size ps new_ml nodes

/-- `resize`. A NULL `new_ml` fails, since the table has an entry to move. -/
def resize (m : Mem) (ml : MList) : Option (MList × Mem) := do
  let (new_ml, m) ← mlCreate { m with size := ml.size * 2 }
  let hash ← ml.hash
  let (new_ml, nodes) ← rehashAll m.size hash (← new_ml) m.nodes
  some (new_ml, { m with nodes := nodes })

/-- `ml_add`: its value and the list stored through `ml`. -/
def mlAdd (m : Mem) (ml : MList) (me : MEntryPtr) : Option (ℤ × MList × Mem) := do
  match ← mlLookup m ml me.deref with
  | some _ => some (1, ml, m)
  | none =>
    if m.sched 0 then do
      let (new_bucket, nodes) := m.nodes.malloc { next_node := none }
      let first ← bucketAt ml (MEntry.meHash me.deref ml.size)
      let (cur, bucket_size) ← tailFrom nodes nodes.brk first
      let nodes ← setNext nodes cur (some new_bucket)
      let nodes ← setEntry nodes cur me
      let m := { m with nodes := nodes, sched := m.sched.rest }
      if ml.size < bucket_size then do
        let (ml, m) ← resize m ml
        some (1, ml, m)
      else some (1, ml, m)
    else some (0, ml, { m with sched := m.sched.rest })

/-- The inner loop of `ml_destroy` and the `free` after it: the entries given to `me_destroy`. -/
def destroyChain : ℕ → Addr → Heap Bucket → Option (List MEntryPtr × Heap Bucket)
  | 0, _, _ => none
  | fuel + 1, remove, nodes => do
    let n ← nodes.load remove
    match n.next_node with
    | none => do
      let nodes ← nodes.free remove
      some ([], nodes)
    | some next_entry => do
      let e ← n.entry
      let nodes ← nodes.free remove
      let (es, nodes) ← destroyChain fuel next_entry nodes
      some (e :: es, nodes)

def destroyBuckets (ml : MList) : List ℕ → Heap Bucket → Option (List MEntryPtr × Heap Bucket)
  | [], nodes => some ([], nodes)
  | i :: is, nodes => do
    let remove ← bucketAt ml i
    let (es, nodes) ← destroyChain nodes.brk remove nodes
    let (es', nodes) ← destroyBuckets ml is nodes
    some (es ++ es', nodes)

/-- `ml_destroy`, which counts the buckets by the global `size`. -/
def mlDestroy (m : Mem) (ml : MList) : Option (List MEntryPtr × Mem) := do
  let (es, nodes) ← destroyBuckets ml (List.range m.size) m.nodes
  some (es, { m with nodes := nodes })

inductive Op where
  | add (me : MEntryPtr)
  | lookup (me : MEntryPtr)

inductive Ret where
  | value (v : ℤ)
  | entry (e : Option MEntryPtr)
deriving DecidableEq

def step (s : Mem × MList) : Op → Option (Ret × (Mem × MList))
  | .add me => (mlAdd s.1 s.2 me).map fun r => (.value r.1, r.2.2, r.2.1)
  | .lookup me => (mlLookup s.1 s.2 me.deref).map fun e => (.entry e, s)

def run (sched : Schedule) (ops : List Op) : Option (List Ret × (Mem × MList)) := do
  let (ml, m) ← mlCreate (.initial sched)
  Machine.run step (m, ← ml) ops

end MList

end CIS415
