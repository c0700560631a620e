import InputCovSched.Symbolic.Mutex
import InputCovSched.Symbolic.Rwlock

/-!
# All the objects of `threadsync.c` on one engine

Condition variables and barriers over the klee primitives, and the system of `n` threads
that call the functions of any number of mutexes, condition variables, barriers and
rwlocks. A thread that waits for a condition is moved to the queue of the mutex when it
is woken and finds the mutex taken: it runs `atomic_mutex_lock` as the rest of its call.

A step is one thread's run from a switch point to the next; between steps no model function
is on the processor.
-/

namespace InputCovSched

open Function

/-! ## Notify with edges -/

namespace KState

variable {κ : Type}

/-- The threads asleep on a list, with what they still have to run. -/
def waiters (n : Nat) (k : KState κ) (wlist : Nat) : List (Nat × κ) :=
  (List.range n).filterMap fun t =>
    match k.status t with
    | .asleep w rest => if w = wlist then some (t, rest) else none
    | _ => none

def addNodesFrom (ctxOf : κ → CallCtx) (source : Nat) : KState κ → List (Nat × κ) → KState κ
  | k, [] => k
  | k, (t, rest) :: ts =>
    addNodesFrom ctxOf source (k.threadMakeHbnodeFrom t (ctxOf rest) source).2 ts

def addNodesTo (ctxOf : κ → CallCtx) (sink : Nat) : KState κ → List (Nat × κ) → KState κ
  | k, [] => k
  | k, (t, rest) :: ts =>
    let (node, k) := k.kleeAddHbnode t (ctxOf rest)
    addNodesTo ctxOf sink (k.kleeAddHbedge node sink) ts

section
variable (n : Nat) (k : KState κ) (wlist : Nat) (ctxOf : κ → CallCtx)

/-- `klee_thread_notify` of one waiter, with a source node. -/
def notifyOneFrom (source : Nat) (pick : Option Nat) : Option (KState κ) :=
  (k.kleeThreadNotifyOne n wlist pick).map fun k' =>
    k'.addNodesFrom ctxOf source ((k.waiters n wlist).filter fun w => some w.1 == pick)

/-- `klee_thread_notify` of all waiters, with a source node. -/
def notifyAllFrom (source : Nat) :
    KState κ :=
  (k.kleeThreadNotifyAll wlist).addNodesFrom ctxOf source (k.waiters n wlist)

/-- `klee_thread_notify` of all waiters, with one node as source and sink. -/
def notifyAllAround (node : Nat) :
    KState κ :=
  ((k.kleeThreadNotifyAll wlist).addNodesTo ctxOf node (k.waiters n wlist)).addNodesFrom ctxOf node
    (k.waiters n wlist)

end

end KState

/-! ## Condition variables -/

structure Cond where
  wlist : Nat
  /-- The mutex of the threads that wait, `NULL` at first. -/
  mutex : Option Nat
  queued : Nat
  deriving DecidableEq, Repr

def Cond.zero : Cond := ⟨0, none, 0⟩

section
variable {κ : Type}

def condInit (k : KState κ) : Cond × KState κ :=
  ({ Cond.zero with wlist := k.kleeGetWlist.1 }, k.kleeGetWlist.2)

/-- The `AlreadyInit` case. -/
def condCheckInit (c : Cond) (k : KState κ) : Cond × KState κ :=
  if c.wlist = 0 then ({ c with wlist := k.kleeGetWlist.1 }, k.kleeGetWlist.2) else (c, k)

/-- `atomic_cond_wait` up to its sleep. `none`: the assertion on the mutex fails. -/
def atomicCondWait (n : Nat) (c : Cond) (mutex : Nat) (m : Mutex) (k : KState κ) (self : Nat)
    (ctx : CallCtx) (pick : Option Nat) (rest : κ) : Option (Flow × Cond × Mutex × KState κ) :=
  let (c, k) := condCheckInit c k
  if 0 < c.queued ∧ c.mutex ≠ some mutex then none
  else
    let c := if 0 < c.queued then c else { c with mutex := some mutex }
    match atomicMutexUnlock n m k self ctx pick with
    | none => none
    | some (.ok, m, k) =>
      some (.sleeps, { c with queued := (c.queued + 1) % 2 ^ 32 }, m,
        k.kleeThreadSleep self c.wlist rest)
    | some (_, m, k) => some (.ret .eperm, c, m, k)

/-- `atomic_cond_wait` from the return of `__thread_sleep` on. -/
def atomicCondWaitRest (c : Cond) (m : Mutex) (k : KState κ) (self : Nat) (ctx : CallCtx)
    (rest : κ) : Flow × Cond × Mutex × KState κ :=
  let (c, k) := condCheckInit c (k.wakeUp self)
  let (flow, m, k) := atomicMutexLock m k self ctx false rest
  (flow, c, m, k)

def atomicCondNotify (n : Nat) (c : Cond) (k : KState κ) (self : Nat) (ctx : CallCtx)
    (ctxOf : κ → CallCtx) (all : Bool) (pick : Option Nat) : Option (Cond × KState κ) :=
  let (c, k) := condCheckInit c k
  let (hbnode, k) := k.kleeAddHbnode self ctx
  if 0 < c.queued then
    if all then some ({ c with queued := 0 }, k.notifyAllFrom n c.wlist ctxOf hbnode)
    else
      (k.notifyOneFrom n c.wlist ctxOf hbnode pick).map fun k =>
        ({ c with queued := c.queued - 1 }, k)
  else some (c, k)

end

/-! ## Barriers -/

structure Barrier where
  wlist : Nat
  initCount : Nat
  left : Nat
  deriving DecidableEq, Repr

/-- Memory that was never initialized as a barrier. -/
def Barrier.zero : Barrier := ⟨0, 0, 0⟩

section
variable {κ : Type}

def barrierInit (k : KState κ) (count : Nat) : Barrier × KState κ :=
  (⟨k.kleeGetWlist.1, count, count⟩, k.kleeGetWlist.2)

/-- The `AlreadyInit` case. -/
def barrierCheckInit (b : Barrier) (k : KState κ) : Barrier × KState κ :=
  if b.wlist = 0 then ({ b with wlist := k.kleeGetWlist.1 }, k.kleeGetWlist.2) else (b, k)

/-- `--barrier->left`, on an unsigned int. -/
def Barrier.arrive (b : Barrier) : Barrier :=
  { b with left := if b.left = 0 then 2 ^ 32 - 1 else b.left - 1 }

/-- How `pthread_barrier_wait` leaves the processor: with a result, or asleep. -/
inductive BarrierFlow where
  | einval
  | serialThread
  | sleeps
  deriving DecidableEq, Repr

def pthreadBarrierWait (n : Nat) (b : Barrier) (k : KState κ) (self : Nat) (ctx : CallCtx)
    (ctxOf : κ → CallCtx) (rest : κ) : BarrierFlow × Barrier × KState κ :=
  let (b, k) := barrierCheckInit b k
  if b.initCount = 0 then (.einval, b, k)
  else
    let b := b.arrive
    if b.left = 0 then
      let b := { b with left := b.initCount }
      let (serial, k) := k.kleeAddHbnode self ctx
      let (b, k) := barrierCheckInit b (k.notifyAllAround n b.wlist ctxOf serial)
      (.serialThread, b, k)
    else (.sleeps, b, k.kleeThreadSleep self b.wlist rest)

end

/-! ## The system of threads -/

/-- What a sleeping thread still has to run. -/
inductive SyncRest where
  | mutexLock (mutex : Nat) (ctx : CallCtx)
  | condWait (cond mutex : Nat) (ctx : CallCtx)
  | barrierWait (barrier : Nat) (ctx : CallCtx)
  | rdlock (rwlock : Nat) (ctx : CallCtx)
  | wrlock (rwlock : Nat) (ctx : CallCtx)
  deriving DecidableEq, Repr

def SyncRest.ctx : SyncRest → CallCtx
  | .mutexLock _ ctx | .condWait _ _ ctx | .barrierWait _ ctx | .rdlock _ ctx | .wrlock _ ctx => ctx

inductive SyncCall where
  | mutexInit (mutex : Nat)
  | mutexLock (mutex : Nat) (ctx : CallCtx) (try_ : Bool)
  | mutexUnlock (mutex : Nat) (ctx : CallCtx) (pick : Option Nat)
  | condInit (cond : Nat)
  | condWait (cond mutex : Nat) (ctx : CallCtx) (pick : Option Nat)
  | condNotify (cond : Nat) (ctx : CallCtx) (all : Bool) (pick : Option Nat)
  | barrierInit (barrier count : Nat)
  | barrierWait (barrier : Nat) (ctx : CallCtx)
  | rwlockInit (rwlock : Nat)
  | rdlock (rwlock : Nat) (ctx : CallCtx) (try_ : Bool)
  | wrlock (rwlock : Nat) (ctx : CallCtx) (try_ : Bool)
  | rwlockUnlock (rwlock : Nat) (ctx : CallCtx) (pick : Option Nat)
  deriving DecidableEq, Repr

structure SyncSys where
  mutexes : Nat → Mutex
  conds : Nat → Cond
  barriers : Nat → Barrier
  rwlocks : Nat → Rwlock
  engine : KState SyncRest

namespace SyncSys

def initial : SyncSys :=
  ⟨fun _ => .zero, fun _ => .zero, fun _ => .zero, fun _ => .zero, .boot⟩

def leave (self : Nat) (k : KState SyncRest) : Flow → KState SyncRest
  | .sleeps => k
  | .ret .ok => k.kleeThreadPreempt
  | .ret _ => k.keepTurn self

section
variable (s : SyncSys) (i : Nat)

def setMutex (m : Mutex) (k : KState SyncRest) : SyncSys :=
  { s with mutexes := update s.mutexes i m, engine := k }

def setCond (c : Cond) (k : KState SyncRest) : SyncSys :=
  { s with conds := update s.conds i c, engine := k }

def setBarrier (b : Barrier) (k : KState SyncRest) : SyncSys :=
  { s with barriers := update s.barriers i b, engine := k }

def setRwlock (rw : Rwlock) (k : KState SyncRest) : SyncSys :=
  { s with rwlocks := update s.rwlocks i rw, engine := k }

end

def call (n : Nat) (s : SyncSys) (t : Nat) : SyncCall → Option SyncSys
  | .mutexInit i =>
    let (m, k) := mutexInit s.engine
    some (s.setMutex i m (k.keepTurn t))
  | .mutexLock i ctx try_ =>
    let (flow, m, k) := atomicMutexLock (s.mutexes i) s.engine t ctx try_ (.mutexLock i ctx)
    some (s.setMutex i m (leave t k flow))
  | .mutexUnlock i ctx pick =>
    (atomicMutexUnlock n (s.mutexes i) s.engine t ctx pick).map fun (_, m, k) =>
      s.setMutex i m k.kleeThreadPreempt
  | .condInit i =>
    let (c, k) := condInit s.engine
    some (s.setCond i c (k.keepTurn t))
  | .condWait i j ctx pick =>
    (atomicCondWait n (s.conds i) j (s.mutexes j) s.engine t ctx pick (.condWait i j ctx)).map
      fun (flow, c, m, k) => (s.setCond i c k).setMutex j m (leave t k flow)
  | .condNotify i ctx all pick =>
    (atomicCondNotify n (s.conds i) s.engine t ctx SyncRest.ctx all pick).map fun (c, k) =>
      s.setCond i c k.kleeThreadPreempt
  | .barrierInit i count =>
    -- `count` is an unsigned int
    if 2 ^ 32 ≤ count then none
    else if count = 0 then some { s with engine := s.engine.keepTurn t }
    else
      let (b, k) := barrierInit s.engine count
      some (s.setBarrier i b (k.keepTurn t))
  | .barrierWait i ctx =>
    let (flow, b, k) :=
      pthreadBarrierWait n (s.barriers i) s.engine t ctx SyncRest.ctx (.barrierWait i ctx)
    some (s.setBarrier i b (if flow = .sleeps then k else k.keepTurn t))
  | .rwlockInit i =>
    let (rw, k) := rwlockInit s.engine
    some (s.setRwlock i rw (k.keepTurn t))
  | .rdlock i ctx try_ =>
    let (flow, rw, k) := atomicRwlockRdlock (s.rwlocks i) s.engine t ctx try_ (.rdlock i ctx)
    some (s.setRwlock i rw (leave t k flow))
  | .wrlock i ctx try_ =>
    let (flow, rw, k) := atomicRwlockWrlock (s.rwlocks i) s.engine t ctx try_ (.wrlock i ctx)
    some (s.setRwlock i rw (leave t k flow))
  | .rwlockUnlock i ctx pick =>
    (atomicRwlockUnlock n (s.rwlocks i) s.engine t ctx pick).map fun (res, rw, k) =>
      s.setRwlock i rw (leave t k (.ret res))

/-- The rest of a call after `__thread_sleep`. -/
def resume (s : SyncSys) (t : Nat) : SyncRest → SyncSys
  | .mutexLock i _ =>
    let (m, k) := atomicMutexLockRest (s.mutexes i) s.engine t
    s.setMutex i m k.kleeThreadPreempt
  | .condWait i j ctx =>
    let (flow, c, m, k) :=
      atomicCondWaitRest (s.conds i) (s.mutexes j) s.engine t ctx (.mutexLock j ctx)
    (s.setCond i c k).setMutex j m (leave t k flow)
  | .barrierWait i _ =>
    let (b, k) := barrierCheckInit (s.barriers i) (s.engine.wakeUp t)
    s.setBarrier i b (k.keepTurn t)
  | .rdlock i ctx =>
    let (rw, k) := rwlockCheckInit (s.rwlocks i) (s.engine.wakeUp t)
    let (flow, rw, k) := rdlockTail rw k t ctx
    s.setRwlock i rw (leave t k flow)
  | .wrlock i ctx =>
    let (rw, k) := rwlockCheckInit (s.rwlocks i) (s.engine.wakeUp t)
    let (flow, rw, k) := wrlockTail rw k t ctx
    s.setRwlock i rw (leave t k flow)

/-- One thread runs from a switch point to the next; without a call it goes on in the one it
slept in. -/
def step (n : Nat) (s : SyncSys) : Nat × Option SyncCall → Option SyncSys
  | (t, op) =>
    if t < n ∧ s.engine.canRun t then
      match op, s.engine.status t with
      | some c, .enabled => call n s t c
      | none, .notified rest => some (s.resume t rest)
      | _, _ => none
    else none

end SyncSys

end InputCovSched
