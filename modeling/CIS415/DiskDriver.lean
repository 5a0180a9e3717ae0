import CIS415.Lib.System
import Mathlib.Data.List.FinRange

/-!
# The disk driver of diskdriver.c

Application threads `T` call the submit functions and `redeem_voucher`; two workers run `write` and
`read`. A step is one operation on a bounded buffer, one mutex operation, or one access to a field of
a voucher, so every interleaving of these is a list of actions. A bounded buffer is a FIFO queue with
the capacity given to `createBB`; a blocking operation is a step that is not enabled. A
`SectorDescriptor *` is an `Option D`, with `none` for NULL. `pthread_cond_wait` may return without a
signal, so a waiting thread may go on at any time.
-/

namespace CIS415.DiskDriver

abbrev vSize : ℕ := 30

theorem vSize_pos : 0 < vSize := Nat.succ_pos 29

def size : ℕ := 100

def vouchSize : ℕ := vSize * 8

/-- A `Voucher *`: the vouchers are the elements of the array `vouchers`. -/
abbrev VoucherPtr := Fin vSize

inductive Kind where
  | read
  | write
deriving DecidableEq

def Kind.flag : Kind → ℤ
  | .read => 0
  | .write => 1

inductive Owner (T : Type) where
  | app (t : T)
  | worker (k : Kind)
deriving DecidableEq

/-- `struct voucher`; `mute` is the thread that has locked the mutex. -/
structure Voucher (T D : Type) where
  status : ℤ
  sd : Option D
  mute : Option (Owner T)
  read_write : ℤ
  completed : ℤ

/-- A voucher as it was issued: for the `index`-th accepted request of its kind. -/
structure Request where
  v : VoucherPtr
  kind : Kind
  index : ℕ
deriving DecidableEq

/-- Where a submitting call with a voucher stands, by its next step. -/
inductive SubmitPhase where
  | setReadWrite
  | setCompleted
  | setSd
  | enqueue
deriving DecidableEq

/-- Where `redeem_voucher` stands, by its next step: `release` is the entry to `pthread_cond_wait` and
`ret` the read of `v->status` in the `return` statement. -/
inductive RedeemPhase (D : Type) where
  | lock
  | test
  | release
  | wait
  | checkStatus
  | checkWrite
  | storeSd
  | checkRead
  | readSd
  | putSd (sd : Option D)
  | reset
  | giveBack
  | unlock
  | ret

inductive WorkPhase (D : Type) where
  | lock
  | readSd
  | device (sd : Option D)
  | store (status : ℤ)
  | complete
  | signal
  | unlock

/-- An application thread: outside the driver, in a submit call (which knows whether it blocks and its
descriptor), or in `redeem_voucher` (with what it has stored through `sd`). -/
inductive AppPC (D : Type) where
  | idle
  | take (k : Kind) (blocking : Bool) (sd : Option D)
  | submit (ph : SubmitPhase) (k : Kind) (blocking : Bool) (sd : Option D) (v : VoucherPtr)
  | giveBack (v : VoucherPtr)
  | redeem (ph : RedeemPhase D) (r : Request) (out : Option (Option D))

inductive WorkerPC (D : Type) where
  | idle
  | busy (ph : WorkPhase D) (v : VoucherPtr)

/-- The shared memory, the threads, and the history of the run: the requests in the order enqueued,
the device operations with their results, the vouchers issued and not yet redeemed, and the completed
redemptions with the value returned and the descriptor handed back. -/
structure State (T D : Type) where
  voucher : VoucherPtr → Voucher T D
  vouchBB : List VoucherPtr
  queue : Kind → List VoucherPtr
  fsds : List (Option D)
  app : T → AppPC D
  worker : Kind → WorkerPC D
  accepted : Kind → List (VoucherPtr × Option D)
  device : Kind → List (VoucherPtr × Option D × ℤ)
  issued : List Request
  redeemed : List (Request × ℤ × Option (Option D))

variable {T D : Type}

/-- The state `init_disk_driver` leaves: every voucher is in `vouchBB`. -/
def initDiskDriver : State T D where
  voucher _ := ⟨0, none, none, 0, 0⟩
  vouchBB := List.finRange vSize
  queue _ := []
  fsds := []
  app _ := .idle
  worker _ := .idle
  accepted _ := []
  device _ := []
  issued := []
  redeemed := []

variable [DecidableEq T]

def State.setApp (s : State T D) (t : T) (pc : AppPC D) : State T D :=
  { s with app := Function.update s.app t pc }

@[simp] theorem State.setApp_self (s : State T D) (t : T) (pc : AppPC D) :
    (s.setApp t pc).app t = pc :=
  Function.update_self ..

theorem State.setApp_of_ne (s : State T D) {t u : T} (pc : AppPC D) (h : u ≠ t) :
    (s.setApp t pc).app u = s.app u :=
  Function.update_of_ne h ..

def State.setWorker (s : State T D) (k : Kind) (pc : WorkerPC D) : State T D :=
  { s with worker := Function.update s.worker k pc }

def State.setVoucher (s : State T D) (v : VoucherPtr) (x : Voucher T D) : State T D :=
  { s with voucher := Function.update s.voucher v x }

/-- The submit functions once they have a voucher. A nonblocking call that finds the queue full goes
on to give the voucher back. -/
def submitStep (s : State T D) (t : T) (k : Kind) (blocking : Bool) (sd : Option D)
    (v : VoucherPtr) : SubmitPhase → Option (State T D)
  | .setReadWrite =>
    some ((s.setVoucher v { s.voucher v with read_write := k.flag }).setApp t
      (.submit .setCompleted k blocking sd v))
  | .setCompleted =>
    some ((s.setVoucher v { s.voucher v with completed := 0 }).setApp t
      (.submit .setSd k blocking sd v))
  | .setSd =>
    some ((s.setVoucher v { s.voucher v with sd := sd }).setApp t
      (.submit .enqueue k blocking sd v))
  | .enqueue =>
    if (s.queue k).length < size then
      some ({ s with
        queue := Function.update s.queue k (s.queue k ++ [v])
        accepted := Function.update s.accepted k (s.accepted k ++ [(v, sd)])
        issued := s.issued ++ [(⟨v, k, (s.accepted k).length⟩ : Request)] }.setApp t .idle)
    else if blocking then none
    else some (s.setApp t (.giveBack v))

def redeemStep (s : State T D) (t : T) (r : Request) (out : Option (Option D)) :
    RedeemPhase D → Option (State T D)
  | .lock =>
    if (s.voucher r.v).mute = none then
      some ((s.setVoucher r.v { s.voucher r.v with mute := some (.app t) }).setApp t
        (.redeem .test r out))
    else none
  | .test =>
    if (s.voucher r.v).completed ≠ 1 then some (s.setApp t (.redeem .release r out))
    else some (s.setApp t (.redeem .checkStatus r out))
  | .release =>
    some ((s.setVoucher r.v { s.voucher r.v with mute := none }).setApp t (.redeem .wait r out))
  | .wait => some (s.setApp t (.redeem .lock r out))
  | .checkStatus =>
    if (s.voucher r.v).status = 1 then some (s.setApp t (.redeem .checkWrite r out))
    else some (s.setApp t (.redeem .checkRead r out))
  | .checkWrite =>
    if (s.voucher r.v).read_write = 1 then some (s.setApp t (.redeem .storeSd r out))
    else some (s.setApp t (.redeem .checkRead r out))
  | .storeSd => some (s.setApp t (.redeem .checkRead r (some (s.voucher r.v).sd)))
  | .checkRead =>
    if (s.voucher r.v).read_write = 0 then some (s.setApp t (.redeem .readSd r out))
    else some (s.setApp t (.redeem .reset r out))
  | .readSd => some (s.setApp t (.redeem (.putSd (s.voucher r.v).sd) r out))
  | .putSd sd => some ({ s with fsds := s.fsds ++ [sd] }.setApp t (.redeem .reset r out))
  | .reset =>
    some ((s.setVoucher r.v { s.voucher r.v with completed := 0 }).setApp t
      (.redeem .giveBack r out))
  | .giveBack =>
    if s.vouchBB.length < vouchSize then
      some ({ s with vouchBB := s.vouchBB ++ [r.v] }.setApp t (.redeem .unlock r out))
    else none
  | .unlock =>
    some ((s.setVoucher r.v { s.voucher r.v with mute := none }).setApp t (.redeem .ret r out))
  | .ret =>
    some ({ s with redeemed := s.redeemed ++ [(r, (s.voucher r.v).status, out)] }.setApp t .idle)

/-- The next step of an application thread inside the driver. The result of the
`nonblockingWriteBB` in `giveBack` is ignored. -/
def appStep (s : State T D) (t : T) : Option (State T D) :=
  match s.app t with
  | .idle => none
  | .take k blocking sd =>
    match s.vouchBB with
    | [] => none
    | v :: rest =>
      some ({ s with vouchBB := rest }.setApp t (.submit .setReadWrite k blocking sd v))
  | .submit ph k blocking sd v => submitStep s t k blocking sd v ph
  | .giveBack v =>
    if s.vouchBB.length < vouchSize then
      some ({ s with vouchBB := s.vouchBB ++ [v] }.setApp t .idle)
    else some (s.setApp t .idle)
  | .redeem ph r out => redeemStep s t r out ph

/-- `write` and `read` with a voucher; `status` is what the device operation returns. -/
def workStep (s : State T D) (k : Kind) (status : ℤ) (v : VoucherPtr) :
    WorkPhase D → Option (State T D)
  | .lock =>
    if (s.voucher v).mute = none then
      some ((s.setVoucher v { s.voucher v with mute := some (.worker k) }).setWorker k
        (.busy .readSd v))
    else none
  | .readSd => some (s.setWorker k (.busy (.device (s.voucher v).sd) v))
  | .device sd =>
    some ({ s with device := Function.update s.device k (s.device k ++ [(v, sd, status)]) }.setWorker
      k (.busy (.store status) v))
  | .store st =>
    some ((s.setVoucher v { s.voucher v with status := st }).setWorker k (.busy .complete v))
  | .complete =>
    some ((s.setVoucher v { s.voucher v with completed := 1 }).setWorker k (.busy .signal v))
  | .signal => some (s.setWorker k (.busy .unlock v))
  | .unlock =>
    some ((s.setVoucher v { s.voucher v with mute := none }).setWorker k .idle)

/-- A thread calls a submit function or redeems an issued voucher, or an application thread or a
worker makes its next step. -/
inductive Action (T D : Type) where
  | submit (t : T) (k : Kind) (blocking : Bool) (sd : Option D)
  | redeem (t : T) (r : Request)
  | app (t : T)
  | work (k : Kind) (status : ℤ)

def step (s : State T D) : Action T D → Option (State T D)
  | .submit t k blocking sd =>
    match s.app t with
    | .idle => some (s.setApp t (.take k blocking sd))
    | _ => none
  | .redeem t r =>
    match s.app t with
    | .idle =>
      if r ∈ s.issued then
        some ({ s with issued := s.issued.erase r }.setApp t (.redeem .lock r none))
      else none
    | _ => none
  | .app t => appStep s t
  | .work k status =>
    match s.worker k with
    | .idle =>
      match s.queue k with
      | [] => none
      | v :: rest =>
        some ({ s with queue := Function.update s.queue k rest }.setWorker k (.busy .lock v))
    | .busy ph v => workStep s k status v ph

def run (as : List (Action T D)) : Option (State T D) :=
  System.exec step initDiskDriver as

end CIS415.DiskDriver
