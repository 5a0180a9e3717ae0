import CIS415.Lib.System
import Mathlib.Data.Int.Notation

/-!
# The launching loop of thv1.c

`main` forks `nprocesses` times, and every forked process calls `execvp`. A process is its copy of `i`
and of the array `pid` with the place it has reached; `fork` adds a process that continues from a copy
of the caller, with 0 for the child's pid. The original process is the first of the pool and the
processes follow in the order they were forked. A step is one evaluation of the loop's condition, one
`fork` or one `execvp`, by any process. `fork` succeeds, an `execvp` that succeeds does not return, and
one that fails returns to the loop.
-/

namespace CIS415.Launch

def maxPids : ℕ := 1024

/-- `past` is the waiting and reporting code, `replaced` the program that `execvp` started. -/
inductive Place where
  | condition
  | fork
  | execvp
  | past
  | replaced
deriving DecidableEq

structure Process where
  i : ℕ
  pid : ℕ → ℤ
  place : Place

namespace Process

def condition (nprocesses : ℕ) (p : Process) : Process :=
  if p.i < nprocesses then { p with place := .fork } else { p with place := .past }

def next (p : Process) : Process :=
  { p with i := p.i + 1, place := .condition }

/-- `pid[i] = fork()` has returned `r`, and `if(pid[i] == 0)` follows. -/
def forked (p : Process) (r : ℤ) : Process :=
  let p := { p with pid := Function.update p.pid p.i r }
  if p.pid p.i = 0 then { p with place := .execvp } else p.next

def execvp (p : Process) (succeeds : Bool) : Process :=
  if succeeds then { p with place := .replaced } else p.next

def Done (p : Process) : Prop :=
  p.place = .past ∨ p.place = .replaced

instance (p : Process) : Decidable p.Done :=
  inferInstanceAs (Decidable (_ ∨ _))

end Process

/-- The action of process `k`; `child` is the pid of the new process. -/
inductive Action where
  | condition (k : ℕ)
  | fork (k : ℕ) (child : ℤ)
  | execvp (k : ℕ) (succeeds : Bool)
deriving DecidableEq

/-- An access outside of `pid` has no result. -/
def step (nprocesses : ℕ) (pool : List Process) : Action → Option (List Process)
  | .condition k => do
    let p ← pool[k]?
    if p.place = .condition then some (pool.set k (p.condition nprocesses)) else none
  | .fork k child => do
    let p ← pool[k]?
    if p.place = .fork ∧ p.i < maxPids ∧ 0 < child then
      some (pool.set k (p.forked child) ++ [p.forked 0])
    else none
  | .execvp k succeeds => do
    let p ← pool[k]?
    if p.place = .execvp then some (pool.set k (p.execvp succeeds)) else none

/-- The original process before the loop; `pid` is not initialized. -/
def initial (pid : ℕ → ℤ) : List Process :=
  [⟨0, pid, .condition⟩]

inductive Event where
  | iterates (k : ℕ)
  | leaves (k : ℕ)
deriving DecidableEq

/-- Process `k` starts an iteration of the loop or leaves it when it evaluates the condition. -/
def event (nprocesses : ℕ) (pool : List Process) : Action → Option Event
  | .condition k => pool[k]?.map fun p => if p.i < nprocesses then .iterates k else .leaves k
  | .fork _ _ => none
  | .execvp _ _ => none

def Settled (pool : List Process) : Prop :=
  ∀ p ∈ pool, p.Done

instance (pool : List Process) : Decidable (Settled pool) :=
  inferInstanceAs (Decidable (∀ p ∈ pool, p.Done))

end CIS415.Launch
