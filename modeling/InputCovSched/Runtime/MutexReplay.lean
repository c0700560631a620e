import InputCovSched.Symbolic.Mutex
import InputCovSched.Runtime.Schedule

/-!
# Replay of mutex calls (`dolock`, `dounlock` in `runtime/ConstrainedExec/lib.cpp`)

A run of the symbolic mutex is recorded call by call: which branch the call took and how
many nodes it added to the happens-before graph. At run time every thread makes its calls
again, in any interleaving that `WaitForHbNode` lets through; every access to a field of
the mutex and every `AdvanceHbNode` is a step of its own. `diverged` is the specification's own
state: some call took another branch than the recorded one, consumed more or fewer nodes, or
failed the assertion that its node exists.
-/

namespace InputCovSched

inductive MutexCall where
  | lock
  | trylock
  | unlock
  deriving DecidableEq, Repr

inductive Branch where
  | acquire
  | queuedWait
  | ebusy
  | release
  | eperm
  deriving DecidableEq, Repr

structure CallRecord where
  call : MutexCall
  ctx : Nat
  branch : Branch
  nodes : Nat
  deriving DecidableEq, Repr

/-! ## Recording -/

/-- The run so far: the system, and the calls with the threads that made them. -/
structure Recording where
  sys : MutexSys
  calls : List (Nat × CallRecord)

/-- The call behind an operation and the branch it takes. A woken waiter is still in the
call it has made. -/
def MutexSys.callOf (s : MutexSys) (t : Nat) : MutexOp → Option (MutexCall × CallCtx × Branch)
  | .lock ctx => some (.lock, ctx, if s.mutex.mustWait then .queuedWait else .acquire)
  | .trylock ctx => some (.trylock, ctx, if s.mutex.mustWait then .ebusy else .acquire)
  | .unlock ctx _ =>
    some (.unlock, ctx, if s.mutex.taken = false ∨ s.mutex.owner ≠ t then .eperm else .release)
  | .resume => none

namespace Recording

def initial (static : Bool) : Recording := ⟨.initial static, []⟩

/-- Calls from ignorable contexts go to another function at run time, with a lock of its
own. -/
def step (n : Nat) (r : Recording) (l : Nat × MutexOp) : Option Recording :=
  match MutexSys.step n r.sys l with
  | none => none
  | some s =>
    match r.sys.callOf l.1 l.2 with
    | none => some { r with sys := s }
    | some (call, ctx, branch) =>
      if ctx.ignorable then none
      else
        let nodes := s.engine.hbGraph.nodes.length - r.sys.engine.hbGraph.nodes.length
        some ⟨s, r.calls ++ [(l.1, ⟨call, ctx.id, branch, nodes⟩)]⟩

def graph (r : Recording) : HBGraph := r.sys.engine.hbGraph

def callsOf (r : Recording) (t : Nat) : List CallRecord :=
  (r.calls.filter fun c => c.1 == t).map Prod.snd

end Recording

/-! ## The runtime -/

/-- Where a thread stands in `dolock` or `dounlock`. -/
inductive ReplayPc where
  | ready
  | readTaken
  | readQueued
  | advance
  | busyAdvance
  | readInc
  | writeInc (v : Nat)
  | queuedAdvance
  | sleepWait
  | sleepAdvance
  | setTaken
  | setOwner
  | readOwner
  | clearTaken
  | testQueued
  | readDec
  | writeDec (v : Nat)
  | unlockWait
  | unlockAdvance
  deriving DecidableEq, Repr

/-- `next` counts the nodes the thread has taken, `took` those of the current call. -/
structure ReplayThread where
  pc : ReplayPc
  todo : List CallRecord
  next : Nat
  took : Nat
  deriving DecidableEq, Repr

structure Replay where
  taken : Bool
  owner : Nat
  queued : Nat
  clock : Nat → Nat
  threads : Nat → ReplayThread
  diverged : Bool

namespace Replay

def initial (r : Recording) : Replay where
  taken := false
  owner := 0
  queued := 0
  clock := fun _ => 0
  threads := fun t => ⟨.ready, r.callsOf t, 0, 0⟩
  diverged := false

section
variable (s : Replay)

def setThread (t : Nat) (th : ReplayThread) : Replay :=
  { s with threads := Function.update s.threads t th }

def goto (t : Nat) (pc : ReplayPc) : Replay :=
  s.setThread t { s.threads t with pc := pc }

def diverge : Replay := { s with diverged := true }

def takes (t : Nat) (rec : CallRecord) (b : Branch) (pc : ReplayPc) : Replay :=
  if rec.branch = b then s.goto t pc else s.diverge

def complete (t : Nat) (rec : CallRecord) : Replay :=
  let th := s.threads t
  if th.took = rec.nodes then s.setThread t ⟨.ready, th.todo.tail, th.next, 0⟩ else s.diverge

end

/-- The clocks of the cross-thread predecessors are there. -/
def predsDone (g : HBGraph) (s : Replay) (t : Nat) (node : HBNode) : Bool :=
  node.incoming.all fun p =>
    match g.getNode? p with
    | none => true
    | some q => q.tuid == t || decide (q.threadOrder ≤ s.clock q.tuid)

/-- `WaitForHbNodeMustExist`: the step is there once the clocks are. -/
def waitForHbNodeMustExist (g : HBGraph) (s : Replay) (t ctx : Nat) (pc : ReplayPc) :
    Option Replay :=
  let th := s.threads t
  match (g.allOf t)[th.next]? with
  | none => some s.diverge
  | some node =>
    if node.callctx ≠ ctx then some s.diverge
    else if s.predsDone g t node then
      some (s.setThread t { th with pc := pc, next := th.next + 1, took := th.took + 1 })
    else none

def advanceHbNode (s : Replay) (t : Nat) : Replay :=
  { s with clock := Function.update s.clock t (s.clock t + 1) }

/-- The part of `dolock` for a mutex that is taken or queued for. -/
def busy (s : Replay) (t : Nat) (rec : CallRecord) : Replay :=
  if rec.call = .trylock then s.takes t rec .ebusy .busyAdvance
  else s.takes t rec .queuedWait .readInc

/-- `dounlock` returns before it has touched anything. -/
def eperm (s : Replay) (t : Nat) (rec : CallRecord) : Replay :=
  if rec.branch = .eperm then s.complete t rec else s.diverge

def stepCall (g : HBGraph) (s : Replay) (t : Nat) (rec : CallRecord) : Option Replay :=
  match (s.threads t).pc with
  | .ready =>
    if rec.call = .unlock then some (if s.taken then s.goto t .readOwner else s.eperm t rec)
    else s.waitForHbNodeMustExist g t rec.ctx .readTaken
  | .readTaken => some (if s.taken then s.busy t rec else s.goto t .readQueued)
  | .readQueued =>
    some (if 0 < s.queued then s.busy t rec else s.takes t rec .acquire .advance)
  | .advance => some ((s.advanceHbNode t).goto t .setTaken)
  | .busyAdvance => some ((s.advanceHbNode t).complete t rec)
  | .readInc => some (s.goto t (.writeInc s.queued))
  | .writeInc v => some ({ s with queued := (v + 1) % 2 ^ 32 }.goto t .queuedAdvance)
  | .queuedAdvance => some ((s.advanceHbNode t).goto t .sleepWait)
  -- the end of the schedule: asleep until the region ends
  | .sleepWait =>
    if (g.allOf t).length ≤ (s.threads t).next then none
    else s.waitForHbNodeMustExist g t rec.ctx .sleepAdvance
  | .sleepAdvance => some ((s.advanceHbNode t).goto t .setTaken)
  | .setTaken => some ({ s with taken := true }.goto t .setOwner)
  | .setOwner => some ({ s with owner := t }.complete t rec)
  | .readOwner =>
    some (if s.owner ≠ t then s.eperm t rec else s.takes t rec .release .clearTaken)
  | .clearTaken => some ({ s with taken := false }.goto t .testQueued)
  | .testQueued => some (s.goto t (if 0 < s.queued then .readDec else .unlockWait))
  | .readDec => some (s.goto t (.writeDec s.queued))
  | .writeDec v => some ({ s with queued := (v + 2 ^ 32 - 1) % 2 ^ 32 }.goto t .unlockWait)
  | .unlockWait => s.waitForHbNodeMustExist g t rec.ctx .unlockAdvance
  | .unlockAdvance => some ((s.advanceHbNode t).complete t rec)

def step (g : HBGraph) (s : Replay) (t : Nat) : Option Replay :=
  match (s.threads t).todo with
  | [] => none
  | rec :: _ => s.stepCall g t rec

end Replay

/-! ## The condition -/

namespace Recording

def NeverHeld (r : Recording) (t : Nat) : Prop :=
  ∀ c, c ∈ r.calls → c.1 = t → c.2.branch ≠ .acquire

/-- A call that finds the mutex taken or queued for is the owner's; an unlock is the owner's
or is refused to a thread that the field `owner` has never named. -/
def OwnerOnly (r : Recording) : Nat × MutexOp → Prop
  | (t, .lock _) | (t, .trylock _) => r.sys.mutex.mustWait = true → r.sys.mutex.owner = t
  | (t, .unlock _ _) =>
    (r.sys.mutex.taken = true ∧ r.sys.mutex.owner = t) ∨ (t ≠ 0 ∧ NeverHeld r t)
  | (_, .resume) => True

instance (r : Recording) (t : Nat) : Decidable (NeverHeld r t) :=
  inferInstanceAs (Decidable (∀ c, c ∈ r.calls → _))

instance (r : Recording) : ∀ l, Decidable (OwnerOnly r l)
  | (_, .lock _) => inferInstanceAs (Decidable (_ → _))
  | (_, .trylock _) => inferInstanceAs (Decidable (_ → _))
  | (_, .unlock _ _) => inferInstanceAs (Decidable (_ ∨ _))
  | (_, .resume) => isTrue trivial

end Recording

end InputCovSched
