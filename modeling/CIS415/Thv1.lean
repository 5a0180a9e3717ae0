import CIS415.Thv2

/-!
# The processes of thv1.c

`main` forks `nprocesses` processes that call `execvp`, waits for every pid in its array, and reports.
A process whose `execvp` fails goes on like the original: it launches, waits and reports with its own
copies of `i` and of `pid`. The processes form a pool in the order in which they were forked, and the
pid of a process is its place there; they are one process group, and no signal is sent. A step is one
test or one call of the system by any process, or the end of a command. `fork` and `execvp` may fail.
-/

namespace CIS415.Thv1

open Launch (maxPids)
open Thv2 (awaits)

/-- A process ends with the command that it runs or with the `return` of `main`. -/
inductive Ending where
  | exited
  | returned
deriving DecidableEq

/-- `condition` is the test of the launching loop, `wait` the loop of `waitpid`, and `command` the program
that `execvp` started. -/
inductive Place where
  | condition
  | fork
  | execvp
  | command
  | wait
  | zombie (e : Ending)
  | reaped (e : Ending)
deriving DecidableEq

def Place.ended : Place → Bool
  | .zombie _ => true
  | .reaped _ => true
  | _ => false

def Place.waitable : Place → Bool
  | .reaped _ => false
  | _ => true

structure Process where
  i : ℕ
  pid : ℕ → ℤ
  parent : Option ℕ
  place : Place

namespace Process

/-- `i < nprocesses`; the loop of `waitpid` starts from 0 again. -/
def condition (nprocesses : ℕ) (p : Process) : Process :=
  if p.i < nprocesses then { p with place := .fork } else { p with place := .wait, i := 0 }

def next (p : Process) : Process :=
  { p with i := p.i + 1, place := .condition }

/-- `pid[i] = fork()` has returned `r`, and `if(pid[i] == 0)` follows. -/
def forked (p : Process) (r : ℤ) : Process :=
  let p := { p with pid := Function.update p.pid p.i r }
  if p.pid p.i = 0 then { p with place := .execvp } else p.next

def child (p : Process) (k : ℕ) : Process :=
  { p.forked 0 with parent := some k }

def execvp (p : Process) (succeeds : Bool) : Process :=
  if succeeds then { p with place := .command } else p.next

def waited (p : Process) : Process :=
  { p with i := p.i + 1 }

end Process

/-- Process `k` has a child for which `waitpid(pid, &status, 0)` waits. -/
def hasChild (k : ℕ) (pid : ℤ) (pool : List Process) : Bool :=
  pool.zipIdx.any fun q => q.1.parent = some k && awaits pid q.2 && q.1.place.waitable

/-- `waitpid` returns a child or, without one, -1; `exit` is the end of the command; `report` is what
follows the loop of `waitpid`, up to the `return`. -/
inductive Action where
  | condition (k : ℕ)
  | fork (k : ℕ) (succeeds : Bool)
  | execvp (k : ℕ) (succeeds : Bool)
  | exit (k : ℕ)
  | waitpid (k : ℕ) (child : Option ℕ)
  | report (k : ℕ)
deriving DecidableEq

def waitpid (pool : List Process) (k : ℕ) (p : Process) : Option ℕ → Option (List Process)
  | some j => do
    let q ← pool[j]?
    match q.place with
    | .zombie e =>
      if q.parent = some k ∧ awaits (p.pid p.i) j then
        some ((pool.set j { q with place := .reaped e }).set k p.waited)
      else none
    | _ => none
  | none => if hasChild k (p.pid p.i) pool then none else some (pool.set k p.waited)

/-- An access outside of `pid` has no result. -/
def step (nprocesses : ℕ) (pool : List Process) : Action → Option (List Process)
  | .condition k => do
    let p ← pool[k]?
    if p.place = .condition then some (pool.set k (p.condition nprocesses)) else none
  | .fork k succeeds => do
    let p ← pool[k]?
    if p.place = .fork ∧ p.i < maxPids then
      some (if succeeds then pool.set k (p.forked pool.length) ++ [p.child k]
        else pool.set k (p.forked (-1)))
    else none
  | .execvp k succeeds => do
    let p ← pool[k]?
    if p.place = .execvp then some (pool.set k (p.execvp succeeds)) else none
  | .exit k => do
    let p ← pool[k]?
    if p.place = .command then some (pool.set k { p with place := .zombie .exited }) else none
  | .waitpid k child => do
    let p ← pool[k]?
    if p.place = .wait ∧ p.i < nprocesses then waitpid pool k p child else none
  | .report k => do
    let p ← pool[k]?
    if p.place = .wait ∧ ¬ p.i < nprocesses then
      some (pool.set k { p with place := .zombie .returned })
    else none

/-- The original process before the loop; `pid` is not initialized. -/
def initial (pid : ℕ → ℤ) : List Process :=
  [⟨0, pid, none, .condition⟩]

def Finished (pool : List Process) : Prop :=
  ∀ p ∈ pool, p.place.ended

instance (pool : List Process) : Decidable (Finished pool) :=
  inferInstanceAs (Decidable (∀ p ∈ pool, p.place.ended = true))

/-- What the system answers in a step, if it has a choice. -/
def Action.answer : Action → Option Bool
  | .fork _ succeeds => some succeeds
  | .execvp _ succeeds => some succeeds
  | _ => none

def Action.reporter : Action → Option ℕ
  | .report k => some k
  | _ => none

def Action.failed : Action → Option ℕ
  | .execvp k false => some k
  | _ => none

def reporters (acts : List Action) : List ℕ :=
  acts.filterMap Action.reporter

def failures (acts : List Action) : List ℕ :=
  acts.filterMap Action.failed

end CIS415.Thv1
