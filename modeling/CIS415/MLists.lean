import CIS415.MList
import CIS415.Lib.System

/-!
# Several lists of mlist.c

The lists of a program share the heap of nodes and the global `size`. A list is named by its number in
the order of the `ml_create` calls. An execution is any interleaving of calls on any of the lists, with
any outcome of the allocations; a call on NULL or on a list that has been destroyed is not enabled.
-/

namespace CIS415.MList

open Pointer

/-- `lists` has `none` for NULL and for a list that has been destroyed. -/
structure World where
  mem : Mem
  lists : List (Option MList)

inductive Call where
  | create
  | add (i : ℕ) (me : MEntryPtr)
  | destroy (i : ℕ)

/-- An `ml_add` that returned 1 for an entry with no equal one in the list. -/
structure Stored where
  list : ℕ
  entry : MEntryPtr
  resized : Bool

namespace World

def initial (sched : Schedule) : World :=
  ⟨.initial sched, []⟩

def list (w : World) (i : ℕ) : Option MList :=
  w.lists[i]?.join

def step (w : World) : Call → Option World
  | .create => do
    let (ml, mem) ← mlCreate w.mem
    some ⟨mem, w.lists ++ [ml]⟩
  | .add i me => do
    let ml ← w.list i
    let (_, ml, mem) ← mlAdd w.mem ml me
    some ⟨mem, w.lists.set i (some ml)⟩
  | .destroy i => do
    let ml ← w.list i
    let (_, mem) ← mlDestroy w.mem ml
    some ⟨mem, w.lists.set i none⟩

/-- What a call stores, and whether it has resized the list. -/
def stored (w : World) : Call → Option Stored
  | .create => none
  | .add i me => do
    let ml ← w.list i
    match ← mlLookup w.mem ml me.deref with
    | some _ => none
    | none => do
      let (v, ml', _) ← mlAdd w.mem ml me
      if v = 1 then some ⟨i, me, decide (ml'.size ≠ ml.size)⟩ else none
  | .destroy _ => none

end World

def entriesOf (i : ℕ) (es : List Stored) : List MEntryPtr :=
  (es.filter fun e => decide (e.list = i)).map Stored.entry

def Resized (i : ℕ) (es : List Stored) : Prop :=
  ∃ e ∈ es, e.list = i ∧ e.resized = true

instance (i : ℕ) (es : List Stored) : Decidable (Resized i es) :=
  inferInstanceAs (Decidable (∃ e ∈ es, _))

/-- The indices at which `ml_destroy` reads the table of its list. -/
def visits (m : Mem) : List ℕ :=
  List.range m.size

theorem mlDestroy_eq (m : Mem) (ml : MList) :
    mlDestroy m ml =
      (destroyBuckets ml (visits m) m.nodes).map fun r => (r.1, { m with nodes := r.2 }) := by
  unfold mlDestroy visits
  cases destroyBuckets ml (List.range m.size) m.nodes <;> rfl

/-- `ml_destroy` visits the buckets of the list and gives `me_destroy` the entries `es`, each once. -/
def Destroys (m : Mem) (ml : MList) (es : List MEntryPtr) : Prop :=
  visits m = List.range ml.size ∧
    ∃ ds m', mlDestroy m ml = some (ds, m') ∧ ds.Perm es

end CIS415.MList
