import CIS415.Iterator
import CIS415.Lib.Machine

/-!
# The AVL tree set of treeset.c

Nodes are owned by exactly one link, so a tree is an inductive value and an assignment through a
pointer rebuilds the path above it. Following a NULL link is undefined in C; here every such
access fails, so a result `some` says that no NULL pointer was dereferenced. A call of the user
function is recorded in the list of elements it was called on.
-/

namespace CIS415

open Iterator

variable {E : Type}

/-- `struct tnode`, with `link[0]`, the element, the balance and `link[1]`; `null` is NULL. -/
inductive TNode (E : Type) where
  | null
  | node (link0 : TNode E) (element : E) (balance : ℤ) (link1 : TNode E)

namespace TNode

def isNull : TNode E → Bool
  | null => true
  | node .. => false

def link : TNode E → Bool → Option (TNode E)
  | null, _ => none
  | node l _ _ _, false => some l
  | node _ _ _ r, true => some r

def setLink : TNode E → Bool → TNode E → Option (TNode E)
  | null, _, _ => none
  | node _ x b r, false, t => some (node t x b r)
  | node l x b _, true, t => some (node l x b t)

def balance : TNode E → Option ℤ
  | null => none
  | node _ _ b _ => some b

def setBalance : TNode E → ℤ → Option (TNode E)
  | null, _ => none
  | node l x _ r, b => some (node l x b r)

def element : TNode E → Option E
  | null => none
  | node _ x _ _ => some x

end TNode

structure TreeSet (E : Type) where
  size : ℤ
  root : TNode E
  cmp : E → E → ℤ

namespace TreeSet

open TNode

/-- `alloc` says whether `malloc` succeeds. -/
def newNode (alloc : Bool) (element : E) : TNode E :=
  if alloc then node null element 0 null else null

def singleRotate (root : TNode E) (dir : Bool) : Option (TNode E) := do
  let save ← root.link (!dir)
  let root ← root.setLink (!dir) (← save.link dir)
  save.setLink dir root

def doubleRotate (root : TNode E) (dir : Bool) : Option (TNode E) := do
  let n ← root.link (!dir)
  let save ← n.link dir
  let n ← n.setLink dir (← save.link (!dir))
  let save ← save.setLink (!dir) n
  let root ← root.setLink (!dir) save
  let save ← root.link (!dir)
  let root ← root.setLink (!dir) (← save.link dir)
  save.setLink dir root

def adjustBalance (root : TNode E) (dir : Bool) (bal : ℤ) : Option (TNode E) := do
  let n ← root.link dir
  let nn ← n.link (!dir)
  let b ← nn.balance
  let (rootBal, nBal) := if b = 0 then (0, 0) else if b = bal then (-bal, 0) else (0, bal)
  let nn ← nn.setBalance 0
  let n ← (← n.setBalance nBal).setLink (!dir) nn
  (← root.setBalance rootBal).setLink dir n

/-- `(dir == 0) ? -1 : +1`. -/
def sign (dir : Bool) : ℤ :=
  if dir = false then -1 else 1

def insertBalance (root : TNode E) (dir : Bool) : Option (TNode E) := do
  let n ← root.link dir
  let bal := sign dir
  if (← n.balance) = bal then
    let root ← (← root.setBalance 0).setLink dir (← n.setBalance 0)
    singleRotate root (!dir)
  else
    let root ← adjustBalance root dir bal
    doubleRotate root (!dir)

/-- The statements of `insert` after its recursive call, on the node whose link `dir` the call
has just replaced. -/
def insertRetrace (root : TNode E) (dir : Bool) (done : Bool) : Option (TNode E × Bool) :=
  if done then some (root, done)
  else do
    let b := (← root.balance) + sign dir
    let root ← root.setBalance b
    if b = 0 then some (root, true)
    else if b.natAbs > 1 then
      let root ← insertBalance root dir
      some (root, true)
    else some (root, done)

def insert (cmp : E → E → ℤ) (alloc : Bool) (element : E) :
    TNode E → Bool → Option (TNode E × Bool)
  | null, done => some (newNode alloc element, done)
  | node l x b r, done =>
    if cmp x element < 0 then do
      let (sub, done) ← insert cmp alloc element r done
      insertRetrace (node l x b sub) true done
    else do
      let (sub, done) ← insert cmp alloc element l done
      insertRetrace (node sub x b r) false done

def removeBalance (root : TNode E) (dir : Bool) (done : Bool) : Option (TNode E × Bool) := do
  let n ← root.link (!dir)
  let bal := sign dir
  let nb ← n.balance
  if nb = -bal then
    let root ← (← root.setBalance 0).setLink (!dir) (← n.setBalance 0)
    some (← singleRotate root dir, done)
  else if nb = bal then
    let root ← adjustBalance root (!dir) (-bal)
    some (← doubleRotate root dir, done)
  else
    let root ← (← root.setBalance (-bal)).setLink (!dir) (← n.setBalance bal)
    some (← singleRotate root dir, true)

/-- The statements of `remove` after its recursive call. -/
def removeRetrace (root : TNode E) (dir : Bool) (done : Bool) : Option (TNode E × Bool) :=
  if done then some (root, done)
  else do
    let b := (← root.balance) - sign dir
    let root ← root.setBalance b
    if b.natAbs = 1 then some (root, true)
    else if b.natAbs > 1 then removeBalance root dir done
    else some (root, done)

def findMin : TNode E → TNode E
  | null => null
  | node l x b r => if l.isNull then node l x b r else findMin l

def findMax : TNode E → TNode E
  | null => null
  | node l x b r => if r.isNull then node l x b r else findMax r

/-- The result holds the new root, the flag `*done` and the calls of the user function; `uf` says
whether one was passed. -/
def remove (cmp : E → E → ℤ) (uf : Bool) :
    TNode E → E → Bool → Option (TNode E × Bool × List E)
  | null, _, done => some (null, done, [])
  | node l x b r, element, done =>
    if cmp element x = 0 ∧ (l.isNull ∨ r.isNull) then
      some (if l.isNull then r else l, done, if uf then [x] else [])
    else do
      -- a match with two children takes its predecessor's element, and the removal goes on
      -- with that element; the loop that looks for the heir is the one of `findMax`
      let (x, element) ← if cmp element x = 0 then do
          let heir ← (findMax l).element
          pure (heir, heir)
        else pure (x, element)
      if cmp x element < 0 then
        let (sub, done, calls) ← remove cmp uf r element done
        let (root, done) ← removeRetrace (node l x b sub) true done
        some (root, done, calls)
      else
        let (sub, done, calls) ← remove cmp uf l element done
        let (root, done) ← removeRetrace (node sub x b r) false done
        some (root, done, calls)

def find (cmp : E → E → ℤ) (element : E) : TNode E → TNode E
  | null => null
  | node l x b r =>
    if cmp element x < 0 then find cmp element l
    else if cmp element x > 0 then find cmp element r
    else node l x b r

structure PopStruct (E : Type) where
  a : List (Option E)
  len : ℕ

/-- `(ps->a)[ps->len++] = element`; a write outside the array fails. -/
def PopStruct.push (ps : PopStruct E) (element : E) : Option (PopStruct E) :=
  if ps.len < ps.a.length then some ⟨ps.a.set ps.len (some element), ps.len + 1⟩ else none

def populate : PopStruct E → TNode E → Option (PopStruct E)
  | ps, null => some ps
  | ps, node l x _ r => do
    let ps ← populate ps l
    let ps ← ps.push x
    populate ps r

def tsCreate (cmpFunction : E → E → ℤ) : TreeSet E :=
  ⟨0, null, cmpFunction⟩

def postpurge (uf : Bool) : TNode E → List E
  | null => []
  | node l x _ r => postpurge uf l ++ postpurge uf r ++ if uf then [x] else []

/-- The calls of the user function; the set is gone. -/
def tsDestroy (ts : TreeSet E) (uf : Bool) : List E :=
  postpurge uf ts.root

def tsAdd (alloc : Bool) (ts : TreeSet E) (element : E) : Option (ℤ × TreeSet E) :=
  if (find ts.cmp element ts.root).isNull then do
    let (root, _) ← insert ts.cmp alloc element ts.root false
    some (1, { ts with root := root, size := ts.size + 1 })
  else some (0, ts)

def minNode (cmp : E → E → ℤ) : TNode E → TNode E → TNode E
  | null, n2 => n2
  | n1, null => n1
  | node l x b r, node l' y b' r' =>
    if cmp x y > 0 then node l' y b' r' else node l x b r

def maxNode (cmp : E → E → ℤ) : TNode E → TNode E → TNode E
  | null, n2 => n2
  | n1, null => n1
  | node l x b r, node l' y b' r' =>
    if cmp x y < 0 then node l' y b' r' else node l x b r

/-- The loop of the four navigation functions, from the node `t` on. A node that lies after the
element (`dir` 0) or before it (`dir` 1) is the new candidate, and the loop goes on in `link[dir]`;
otherwise it goes on in the other link. `stop` says whether an equal element ends the loop. -/
def navigate (cmp : E → E → ℤ) (element : E) (stop dir : Bool) : TNode E → TNode E → TNode E
  | null, current => current
  | node l x b r, current =>
    if stop ∧ cmp element x = 0 then node l x b r
    else if dir then
      if cmp element x > 0 then
        navigate cmp element stop dir r (maxNode cmp (node l x b r) current)
      else navigate cmp element stop dir l current
    else
      if cmp element x < 0 then
        navigate cmp element stop dir l (minNode cmp (node l x b r) current)
      else navigate cmp element stop dir r current

/-- The status and the element stored through the pointer, `none` when nothing is stored. -/
def deliver : TNode E → ℤ × Option E
  | null => (0, none)
  | node _ x _ _ => (1, some x)

def tsCeiling (ts : TreeSet E) (element : E) : ℤ × Option E :=
  deliver (navigate ts.cmp element true false ts.root null)

def tsClear (ts : TreeSet E) (uf : Bool) : List E × TreeSet E :=
  (postpurge uf ts.root, { ts with root := null, size := 0 })

def tsContains (ts : TreeSet E) (element : E) : ℤ :=
  if (find ts.cmp element ts.root).isNull then 0 else 1

def tsFirst (ts : TreeSet E) : ℤ × Option E :=
  deliver (findMin ts.root)

def tsFloor (ts : TreeSet E) (element : E) : ℤ × Option E :=
  deliver (navigate ts.cmp element true true ts.root null)

def tsHigher (ts : TreeSet E) (element : E) : ℤ × Option E :=
  deliver (navigate ts.cmp element false false ts.root null)

def tsIsEmpty (ts : TreeSet E) : ℤ :=
  if ts.size = 0 then 1 else 0

def tsLast (ts : TreeSet E) : ℤ × Option E :=
  deliver (findMax ts.root)

def tsLower (ts : TreeSet E) (element : E) : ℤ × Option E :=
  deliver (navigate ts.cmp element false true ts.root null)

/-- The status, the element stored through the pointer, and the set. -/
def tsPollFirst (ts : TreeSet E) : Option (ℤ × Option E × TreeSet E) :=
  match findMin ts.root with
  | null => some (0, none, ts)
  | node _ x _ _ => do
    let (root, _, _) ← remove ts.cmp false ts.root x false
    some (1, some x, { ts with root := root })

def tsPollLast (ts : TreeSet E) : Option (ℤ × Option E × TreeSet E) :=
  match findMax ts.root with
  | null => some (0, none, ts)
  | node _ x _ _ => do
    let (root, _, _) ← remove ts.cmp false ts.root x false
    some (1, some x, { ts with root := root })

def tsRemove (ts : TreeSet E) (element : E) (uf : Bool) : Option (ℤ × List E × TreeSet E) :=
  if (find ts.cmp element ts.root).isNull then some (0, [], ts)
  else do
    let (root, _, calls) ← remove ts.cmp uf ts.root element false
    some (1, calls, { ts with root := root, size := ts.size - 1 })

def tsSize (ts : TreeSet E) : ℤ :=
  ts.size

/-- The outer option is failure, the inner one a NULL result. -/
def genArray (alloc : Bool) (ts : TreeSet E) : Option (Option (PopStruct E)) :=
  if 0 < ts.size ∧ alloc then do
    let ps ← populate ⟨List.replicate ts.size.toNat none, 0⟩ ts.root
    some (some ps)
  else some none

def tsToArray (alloc : Bool) (ts : TreeSet E) : Option (Option (List (Option E) × ℤ)) := do
  match ← genArray alloc ts with
  | some ps => some (some (ps.a, ts.size))
  | none => some none

def tsItCreate (alloc : Bool) (ts : TreeSet E) : Option (Option (Iterator E)) := do
  match ← genArray alloc ts with
  | some ps => some (itCreate alloc ts.size ps.a)
  | none => some none

inductive Op (E : Type) where
  | add (element : E)
  | remove (element : E) (uf : Bool)
  | pollFirst
  | pollLast
  | clear (uf : Bool)
  | contains (element : E)

/-- What a call hands back: its value, the element stored through a pointer argument, and the
calls of the user function. -/
structure Ret (E : Type) where
  value : ℤ
  element : Option E := none
  calls : List E := []

def step (ts : TreeSet E) : Op E → Option (Ret E × TreeSet E)
  | .add e => do
    let (v, ts) ← tsAdd true ts e
    some (⟨v, none, []⟩, ts)
  | .remove e uf => do
    let (v, calls, ts) ← tsRemove ts e uf
    some (⟨v, none, calls⟩, ts)
  | .pollFirst => do
    let (v, e, ts) ← tsPollFirst ts
    some (⟨v, e, []⟩, ts)
  | .pollLast => do
    let (v, e, ts) ← tsPollLast ts
    some (⟨v, e, []⟩, ts)
  | .clear uf => let (calls, ts) := tsClear ts uf; some (⟨0, none, calls⟩, ts)
  | .contains e => some (⟨tsContains ts e, none, []⟩, ts)

def run (cmpFunction : E → E → ℤ) (ops : List (Op E)) : Option (List (Ret E) × TreeSet E) :=
  Machine.run step (tsCreate cmpFunction) ops

end TreeSet

end CIS415
