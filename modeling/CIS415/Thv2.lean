import CIS415.Lib.System
import CIS415.Launch

/-!
# The processes of thv2.c

`main` forks `nprocesses` processes, each of which waits for SIGUSR1 before it calls `execvp`. It then
sends every one of them SIGUSR1, SIGSTOP and SIGCONT, and waits for them. A process is its copy of `i`, of
`pid` and of `USR1_received`, with the place it has reached and the signals pending for it. The processes
form a pool in the order in which they were forked, and the pid of a process is its place there; they
are one process group, and no signal comes from outside. A step is one call of the system or one test by
any process, the delivery of a signal, or the end of a command.
-/

namespace CIS415.Thv2

open Launch (maxPids)

inductive Signal where
  | usr1
  | stop
  | cont
deriving DecidableEq

inductive Ending where
  | exited
  | killed
deriving DecidableEq

/-- `test` is the condition `! USR1_received` and `sleep` the call in the body of that loop; `command` is
the program that `execvp` started. -/
inductive Place where
  | launch
  | test
  | sleep
  | execvp
  | kill (sig : Signal)
  | wait
  | report
  | command
  | zombie (e : Ending)
  | reaped (e : Ending)
deriving DecidableEq

def Place.alive : Place → Bool
  | .zombie _ => false
  | .reaped _ => false
  | _ => true

/-- A process that has been waited for is no child any more. -/
def Place.waitable : Place → Bool
  | .reaped _ => false
  | _ => true

structure Process where
  i : ℕ
  pid : ℕ → ℤ
  received : ℕ
  parent : Option ℕ
  place : Place
  usr1Pending : Bool
  stopPending : Bool
  stopped : Bool

namespace Process

def forked (p : Process) (r : ℤ) : Process :=
  let p := { p with pid := Function.update p.pid p.i r }
  if p.pid p.i = 0 then { p with place := .test } else { p with i := p.i + 1 }

/-- The new process, which inherits no pending signal. -/
def child (p : Process) (k : ℕ) : Process :=
  { p.forked 0 with parent := some k, usr1Pending := false, stopPending := false }

/-- An `execvp` that fails returns to the loop. -/
def execvp (p : Process) (succeeds : Bool) : Process :=
  if succeeds then { p with place := .command } else { p with place := .launch, i := p.i + 1 }

/-- What `kill` does to a process: SIGCONT takes effect at once, and undoes a pending SIGSTOP. -/
def signal (p : Process) : Signal → Process
  | .usr1 => { p with usr1Pending := true }
  | .stop => { p with stopPending := true }
  | .cont => { p with stopPending := false, stopped := false }

/-- `USR1_handler` runs, which ends a `sleep`. The command has no handler, and is killed. -/
def usr1 (p : Process) : Process :=
  let p := { p with usr1Pending := false }
  match p.place with
  | .command => { p with place := .zombie .killed }
  | .sleep => { p with received := p.received + 1, place := .test }
  | _ => { p with received := p.received + 1 }

def stop (p : Process) : Process :=
  { p with stopPending := false, stopped := true }

end Process

/-- `kill(pid, sig)` by process `k`: 0 is the process group, and -1 every process but the caller. -/
def kill (k : ℕ) (pid : ℤ) (sig : Signal) (pool : List Process) : List Process :=
  if pid = 0 then pool.map (·.signal sig)
  else if pid = -1 then pool.mapIdx fun j p => if j = k then p else p.signal sig
  else if 0 < pid then pool.modify pid.toNat (·.signal sig)
  else pool

def Signal.next : Signal → Place
  | .usr1 => .kill .stop
  | .stop => .kill .cont
  | .cont => .wait

/-- `waitpid(pid, NULL, 0)` waits for process `j`, if that is a child of the caller. -/
def awaits (pid : ℤ) (j : ℕ) : Bool :=
  pid = 0 || pid = -1 || pid = j

def hasChild (k : ℕ) (pid : ℤ) (pool : List Process) : Bool :=
  pool.zipIdx.any fun q => q.1.parent = some k && awaits pid q.2 && q.1.place.waitable

/-- `proceed` is the next step of process `k` where it needs no answer from the system; `waitpid` returns
a child or, without one, -1; `exit` is the end of the command. -/
inductive Action where
  | proceed (k : ℕ)
  | fork (k : ℕ) (succeeds : Bool)
  | execvp (k : ℕ) (succeeds : Bool)
  | waitpid (k : ℕ) (child : Option ℕ)
  | exit (k : ℕ)
  | deliver (k : ℕ) (sig : Signal)
deriving DecidableEq

def proceed (nprocesses : ℕ) (pool : List Process) (k : ℕ) (p : Process) : Option (List Process) :=
  match p.place with
  | .launch =>
    if p.i < nprocesses then none else some (pool.set k { p with place := .kill .usr1, i := 0 })
  | .test => some (pool.set k { p with place := if p.received = 0 then .sleep else .execvp })
  | .sleep => some (pool.set k { p with place := .test })
  | .kill sig =>
    if p.i < nprocesses then
      some (kill k (p.pid p.i) sig (pool.set k { p with i := p.i + 1 }))
    else some (pool.set k { p with place := sig.next, i := 0 })
  | .wait => if p.i < nprocesses then none else some (pool.set k { p with place := .report })
  | _ => none

def waitpid (pool : List Process) (k : ℕ) (p : Process) : Option ℕ → Option (List Process)
  | some j => do
    let q ← pool[j]?
    match q.place with
    | .zombie e =>
      if q.parent = some k ∧ awaits (p.pid p.i) j then
        some ((pool.set j { q with place := .reaped e }).set k { p with i := p.i + 1 })
      else none
    | _ => none
  | none =>
    if hasChild k (p.pid p.i) pool then none else some (pool.set k { p with i := p.i + 1 })

/-- A process that is stopped takes no step, and no other signal is delivered to it. An access outside of
`pid` has no result. -/
def step (nprocesses : ℕ) (pool : List Process) : Action → Option (List Process)
  | .proceed k => do
    let p ← pool[k]?
    if p.stopped then none else proceed nprocesses pool k p
  | .fork k succeeds => do
    let p ← pool[k]?
    if p.stopped = false ∧ p.place = .launch ∧ p.i < nprocesses ∧ p.i < maxPids then
      some (if succeeds then pool.set k (p.forked pool.length) ++ [p.child k]
        else pool.set k (p.forked (-1)))
    else none
  | .execvp k succeeds => do
    let p ← pool[k]?
    if p.stopped = false ∧ p.place = .execvp then some (pool.set k (p.execvp succeeds)) else none
  | .waitpid k child => do
    let p ← pool[k]?
    if p.stopped = false ∧ p.place = .wait ∧ p.i < nprocesses then waitpid pool k p child else none
  | .exit k => do
    let p ← pool[k]?
    if p.stopped = false ∧ p.place = .command then
      some (pool.set k { p with place := .zombie .exited })
    else none
  | .deliver k .usr1 => do
    let p ← pool[k]?
    if p.stopped = false ∧ p.usr1Pending ∧ p.place.alive then some (pool.set k p.usr1) else none
  | .deliver k .stop => do
    let p ← pool[k]?
    if p.stopPending ∧ p.place.alive then some (pool.set k p.stop) else none
  | .deliver _ .cont => none

def initial (pid : ℕ → ℤ) : List Process :=
  [⟨0, pid, 0, none, .launch, false, false, false⟩]

def Action.Succeeds : Action → Prop
  | .fork _ succeeds => succeeds = true
  | .execvp _ succeeds => succeeds = true
  | _ => True

instance : DecidablePred Action.Succeeds
  | .fork _ succeeds => inferInstanceAs (Decidable (succeeds = true))
  | .execvp _ succeeds => inferInstanceAs (Decidable (succeeds = true))
  | .proceed _ => .isTrue trivial
  | .waitpid _ _ => .isTrue trivial
  | .exit _ => .isTrue trivial
  | .deliver _ _ => .isTrue trivial

end CIS415.Thv2
