import InputCovSched.Symbolic.Engine

/-!
# Threads of the symbolic run (`runtime/POSIX/threads.c`)

`__tsync.threads` is a table of slots; a thread id is an index of this table. The engine's
threads are numbered in the order of their creation. `create`, `exit`, `join` and `detach` first
record a node behind `__tsync.last_hbnode`, so that their nodes form a chain. `create` records two
more nodes (one of the creator, one of the new thread), a successful `join` records one more,
behind the node of the exit; that one is not part of the chain.

Between two calls of a thread any thread that does not sleep may make the next call.
-/

namespace InputCovSched

open Function

/-- The calling context of a node is the same in the symbolic run and at run time. -/
def syncCtx : CallCtx := ⟨0, false⟩

namespace KState

variable {κ : Type}

/-- `HBGraph::addNodeForNewThread`. -/
def addNodeForNewThread (k : KState κ) (t : Nat) : (creator : Option Nat) → KState κ
  | none =>
    let r := k.hbGraph.addNode t syncCtx none 0
    { k with hbGraph := r.2, lastHbNode := update k.lastHbNode t r.1 }
  | some creator =>
    let k := (k.kleeAddHbnode creator syncCtx).2
    let r := k.hbGraph.addNode t syncCtx none (k.lastHbNode creator)
    { k with hbGraph := r.2, lastHbNode := update k.lastHbNode t r.1 }

/-- A notified thread gets a new node behind `source`. -/
def notifyWithHbedge (k : KState κ) (t source : Nat) : KState κ :=
  let r := k.kleeAddHbnode t syncCtx
  let k := r.2.kleeAddHbedge source r.1
  { k with status := update k.status t (k.status t).wake }

/-- `klee_thread_notify` of all waiters with a source node. -/
def kleeThreadNotifyAllFrom (n : Nat) (k : KState κ) (wlist source : Nat) : KState κ :=
  (List.range n).foldl
    (fun k t => if (k.status t).waitsOn wlist then k.notifyWithHbedge t source else k) k

end KState

/-- `thread_data_t`. -/
structure TData where
  allocated : Bool
  joinable : Bool
  hasjoiner : Bool
  terminated : Bool
  wlist : Nat
  deriving DecidableEq, Repr

def TData.zero : TData := ⟨false, false, false, false, 0⟩

inductive PthreadRet where
  | ok
  | eagain
  | esrch
  | einval
  | edeadlk
  deriving DecidableEq, Repr

/-- `threads` and `lastHbnode` are fields of `__tsync`. `context` is the slot of a thread,
`threadIn` the last thread that was created in a slot. A joiner that sleeps still has to clear
the slot. -/
structure ThreadsSys where
  threads : Nat → TData
  lastHbnode : Nat
  engine : KState Nat
  created : Nat
  context : Nat → Nat
  threadIn : Nat → Nat
  exited : Nat → Bool

namespace ThreadsSys

/-- `klee_init_threads` and `klee_init_default_thread`. -/
def initial : ThreadsSys :=
  let r := (KState.boot : KState Nat).kleeGetWlist
  { threads := update (fun _ => .zero) 0
      { TData.zero with allocated := true, joinable := true, wlist := r.1 }
    lastHbnode := 0
    engine := r.2.addNodeForNewThread 0 none
    created := 1
    context := fun _ => 0
    threadIn := fun _ => 0
    exited := fun _ => false }

section
variable (s : ThreadsSys)

def setData (idx : Nat) (tdata : TData) : ThreadsSys :=
  { s with threads := update s.threads idx tdata }

def clear (idx : Nat) : ThreadsSys := s.setData idx .zero

/-- The index that `STATIC_LIST_ALLOC` finds. -/
def staticListAlloc : Option Nat :=
  (List.range kleeMaxThreads).find? fun i => !(s.threads i).allocated

/-- "Serialize thread operations in the HBGraph". -/
def serialize (t : Nat) : ThreadsSys :=
  let r := s.engine.threadMakeHbnodeFrom t syncCtx s.lastHbnode
  { s with lastHbnode := r.1, engine := r.2 }

/-- The result is the slot of the new thread, `none` for `EAGAIN`. -/
def pthreadCreate (t : Nat) : ThreadsSys × Option Nat :=
  let s := s.serialize t
  match s.staticListAlloc with
  | none => (s, none)
  | some newIdx =>
    let r := s.engine.kleeGetWlist
    let s := s.setData newIdx ⟨true, true, false, false, r.1⟩
    -- `klee_thread_create`
    ({ s with
        engine := r.2.addNodeForNewThread s.created (some t)
        created := s.created + 1
        context := update s.context s.created newIdx
        threadIn := update s.threadIn newIdx s.created },
      some newIdx)

def pthreadExit (t : Nat) : ThreadsSys :=
  let s := s.serialize t
  let idx := s.context t
  let tdata := s.threads idx
  let s :=
    if tdata.joinable then
      let s := s.setData idx { tdata with terminated := true }
      { s with engine := s.engine.kleeThreadNotifyAllFrom s.created tdata.wlist s.lastHbnode }
    else s.clear idx
  { s with exited := update s.exited t true }

def pthreadJoin (t thread : Nat) : ThreadsSys × PthreadRet :=
  let s := s.serialize t
  let tdata := s.threads thread
  if thread ≥ kleeMaxThreads then (s, .esrch)
  else if thread = s.context t then (s, .edeadlk)
  else if tdata.allocated = false then (s, .esrch)
  else if tdata.joinable = false ∨ tdata.hasjoiner then (s, .einval)
  else
    let s := s.setData thread { tdata with hasjoiner := true }
    if tdata.terminated = false then
      ({ s with engine := s.engine.kleeThreadSleep t tdata.wlist thread }, .ok)
    else
      let r := s.engine.kleeAddHbnode t syncCtx
      -- `klee_add_hbedge_from_threads_last_hbnode`
      let engine := r.2.kleeAddHbedge (r.2.lastHbNode (s.threadIn thread)) r.1
      ({ s with engine := engine }.clear thread, .ok)

def pthreadDetach (t thread : Nat) : ThreadsSys × PthreadRet :=
  if thread ≥ kleeMaxThreads then (s, .esrch)
  else
    let s := s.serialize t
    let tdata := s.threads thread
    if tdata.allocated = false then (s, .esrch)
    else if tdata.joinable = false then (s, .einval)
    else if tdata.terminated then (s.clear thread, .ok)
    else (s.setData thread { tdata with joinable := false }, .ok)

/-- A notified joiner runs the rest of `pthread_join`. -/
def joinResume (t thread : Nat) : ThreadsSys :=
  { s with engine := s.engine.wakeUp t }.clear thread

end

end ThreadsSys

/-! ## Recorded runs -/

/-- A call with its result: for `create` the slot and the number of the new thread, for a `join`
that sleeps the result it returns when it is woken. -/
inductive PthreadCall where
  | create (made : Option (Nat × Nat))
  | exit
  | join (thread : Nat) (ret : PthreadRet)
  | detach (thread : Nat) (ret : PthreadRet)
  deriving DecidableEq, Repr

inductive PthreadOp where
  | create
  | exit
  | join (thread : Nat)
  | detach (thread : Nat)
  | resume
  deriving DecidableEq, Repr

structure ThreadRecording where
  sys : ThreadsSys
  calls : List (Nat × PthreadCall)

namespace ThreadRecording

def initial : ThreadRecording := ⟨.initial, []⟩

section
variable (r : ThreadRecording)

def record (t : Nat) (s : ThreadsSys) (call : PthreadCall) : ThreadRecording :=
  ⟨s, r.calls ++ [(t, call)]⟩

def call (t : Nat) : PthreadOp → Option ThreadRecording
  | .create =>
    let p := r.sys.pthreadCreate t
    some (r.record t p.1 (.create (p.2.map fun slot => (slot, r.sys.created))))
  | .exit => some (r.record t (r.sys.pthreadExit t) .exit)
  | .join thread =>
    let p := r.sys.pthreadJoin t thread
    some (r.record t p.1 (.join thread p.2))
  | .detach thread =>
    let p := r.sys.pthreadDetach t thread
    some (r.record t p.1 (.detach thread p.2))
  | .resume => none

def step (l : Nat × PthreadOp) : Option ThreadRecording :=
  if l.1 < r.sys.created ∧ r.sys.exited l.1 = false then
    match r.sys.engine.status l.1 with
    | .enabled => r.call l.1 l.2
    | .asleep _ _ => none
    | .notified thread =>
      if l.2 = .resume then some { r with sys := r.sys.joinResume l.1 thread } else none
  else none

end

end ThreadRecording

end InputCovSched
