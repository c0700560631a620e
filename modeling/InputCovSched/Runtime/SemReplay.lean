import InputCovSched.Lib.SharedTrace
import InputCovSched.Runtime.RecordedGraph
import InputCovSched.Symbolic.Sem

/-!
# Replay of a semaphore (`sem_*` in `runtime/ConstrainedExec/lib.cpp`)

In the symbolic run a call records one node, behind `sem->last_hbnode`. Only a call that changes
the count stores its node there. A `sem_wait` that finds 0 sleeps, and takes the count after a
notify without another node.

At run time the count is shared memory. `dodown` tests it again after every sleep, and takes one
more node for it. A thread makes its recorded calls in order, each with the count as it finds it,
and fails where a call returns anything else than in the symbolic run, or where it returns and did
not there.
-/

namespace InputCovSched

open SharedMemory

abbrev SemProg := Prog Unit Nat

/-- A call, with what it returned in the symbolic run; `sem_wait` returns 0 if at all. -/
inductive SemCall where
  | wait
  | trywait (ret : Ret)
  | post
  deriving DecidableEq, Repr

namespace SemProg

def load : SemProg Nat := .read () .ret

def store (v : Nat) : SemProg Unit := .write () v (.ret ())

def waitForHbNodeMustExist : SemProg Unit := .wait false (.ret ())

def waitForHbNodeMustExistCanSleep : SemProg Unit := .wait true (.ret ())

def advanceHbNode : SemProg Unit := .advance (.ret ())

/-- "Resource exhausted?"  Each round but the first takes a node of the thread; `rounds` bounds
them. -/
def downLoop (istry : Bool) : Nat → SemProg Ret
  | 0 => .fail
  | rounds + 1 => do
    let count ← load
    if count = 0 then
      if istry then do
        advanceHbNode
        pure .eagain
      else do
        advanceHbNode
        waitForHbNodeMustExistCanSleep
        downLoop istry rounds
    else do
      let count ← load
      store ((count + (2 ^ 32 - 1)) % 2 ^ 32)
      advanceHbNode
      pure .ok

def dodown (rounds : Nat) (istry : Bool) : SemProg Ret := do
  waitForHbNodeMustExist
  downLoop istry (rounds + 1)

def doup : SemProg Unit := do
  waitForHbNodeMustExist
  let count ← load
  store ((count + 1) % 2 ^ 32)
  advanceHbNode

def check (p : Bool) : SemProg Unit := if p then .ret () else .fail

def runCall (rounds : Nat) : SemCall → SemProg Unit
  | .wait => do
    let r ← dodown rounds false
    check (r = .ok)
  | .trywait ret => do
    let r ← dodown rounds true
    check (r = ret)
  | .post => doup

def runCalls (rounds : Nat) : List SemCall → SemProg Unit
  | [] => pure ()
  | c :: cs => do
    runCall rounds c
    runCalls rounds cs

end SemProg

/-! ## The symbolic run -/

/-- `preempt`: the running thread gets to a switch point outside of the semaphore functions, or to
its end. -/
inductive SemAction where
  | wait
  | trywait
  | post (pick : Option Nat)
  | resume
  | preempt
  deriving DecidableEq, Repr

/-- The system and its calls. `missed` are the threads whose calls found the count at 0 since it
was changed last. -/
structure SemRecording where
  sys : SemSys
  calls : List (Nat × SemCall)
  missed : List Nat

namespace SemRecording

def initial (value : Nat) : Option SemRecording := (SemSys.initial value).map fun s => ⟨s, [], []⟩

def callsOf (r : SemRecording) (t : Nat) : List SemCall :=
  (r.calls.filter fun c => c.1 == t).map Prod.snd

def graph (r : SemRecording) : HBGraph := r.sys.engine.hbGraph

/-- The call of thread `t` that leads to `s`, by what `atomic_sem_down` returned. -/
def down (r : SemRecording) (t : Nat) (s : SemSys) (try_ : Bool) : SemRecording :=
  match (atomicSemDown r.sys.sem r.sys.engine t syncCtx try_ ()).1 with
  | .ret .ok => ⟨s, r.calls ++ [(t, if try_ then .trywait .ok else .wait)], []⟩
  | .ret ret => ⟨s, r.calls ++ [(t, .trywait ret)], r.missed ++ [t]⟩
  | .sleeps => ⟨s, r.calls ++ [(t, .wait)], r.missed ++ [t]⟩

def step (n : Nat) (r : SemRecording) : Nat × SemAction → Option SemRecording
  | (t, .wait) => (r.sys.step n (t, .wait syncCtx)).map fun s => r.down t s false
  | (t, .trywait) => (r.sys.step n (t, .trywait syncCtx)).map fun s => r.down t s true
  | (t, .post pick) =>
    (r.sys.step n (t, .post syncCtx pick)).map fun s => ⟨s, r.calls ++ [(t, .post)], []⟩
  | (t, .resume) => (r.sys.step n (t, .resume)).map fun s => ⟨s, r.calls, []⟩
  | (t, .preempt) =>
    if t < n ∧ r.sys.engine.canRun t ∧ r.sys.engine.status t = .enabled then
      some { r with sys := { r.sys with engine := r.sys.engine.kleeThreadPreempt } }
    else none

/-- Whoever found the count at 0 since it was changed last is the thread that posts. -/
def Settled (r : SemRecording) : Nat × SemAction → Prop
  | (t, .post _) => ∀ w ∈ r.missed, w = t
  | _ => True

instance (r : SemRecording) : ∀ l, Decidable (r.Settled l)
  | (t, .post _) => inferInstanceAs (Decidable (∀ w ∈ r.missed, w = t))
  | (_, .wait) => isTrue trivial
  | (_, .trywait) => isTrue trivial
  | (_, .resume) => isTrue trivial
  | (_, .preempt) => isTrue trivial

/-! ## The replay -/

/-- What thread `t` does at run time. If its last `sem_wait` did not return in the symbolic run, it
must not return. -/
def rtThread (r : SemRecording) (rounds t : Nat) : SharedMemory.Thread Unit Nat :=
  ⟨(SemProg.runCalls rounds (r.callsOf t)).bind fun _ =>
      SemProg.check (r.sys.engine.status t = .enabled), 0, r.graph.nodesOf t⟩

def rtInitial (r : SemRecording) (value rounds : Nat) : SharedMemory.Replay Unit Nat :=
  .initial (fun _ => value) (r.rtThread rounds)

def rtStep (r : SemRecording) :
    SharedMemory.Replay Unit Nat → Nat → Option (SharedMemory.Replay Unit Nat) :=
  SharedMemory.Replay.step r.graph.preds

end SemRecording

end InputCovSched
