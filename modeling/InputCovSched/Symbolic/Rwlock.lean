import InputCovSched.Symbolic.Engine
import InputCovSched.Lib.Machine

/-!
# The symbolic read-write lock (`runtime/POSIX/threadsync.c`)

`rdlock`, `wrlock`, their try forms and `unlock` over the klee primitives, and the system
of `n` threads that call them on one rwlock; unlock is called by holders only. The
specification's own state is what each thread holds (`held`, the latest acquisition
first) and the finished critical sections in the order in which they ended (`done`).
-/

namespace InputCovSched

open Tally

structure Rwlock where
  wlistReaders : Nat
  wlistWriters : Nat
  lastReaderHbGroup : Nat
  lastWriterHbNode : Nat
  nrReaders : Nat
  nrReadersQueued : Nat
  nrWritersQueued : Nat
  writer : Bool
  deriving DecidableEq, Repr

/-- What a sleeping caller still has to run; the node of the acquisition is made then, at
the calling context `ctx`. -/
inductive RwRest where
  | rdlock (ctx : Nat)
  | wrlock (ctx : Nat)
  deriving DecidableEq, Repr

def Rwlock.zero : Rwlock := ⟨0, 0, 0, 0, 0, 0, 0, false⟩

section
variable {κ : Type}

def Rwlock.getWlists (rw : Rwlock) (k : KState κ) : Rwlock × KState κ :=
  let (readers, k) := k.kleeGetWlist
  let (writers, k) := k.kleeGetWlist
  ({ rw with wlistReaders := readers, wlistWriters := writers }, k)

def rwlockInit (k : KState κ) : Rwlock × KState κ := Rwlock.zero.getWlists k

section
variable (rw : Rwlock) (k : KState κ)

/-- The `AlreadyInit` case: a statically initialized rwlock gets its waiting lists. -/
def rwlockCheckInit : Rwlock × KState κ :=
  if rw.wlistReaders = 0 then rw.getWlists k else (rw, k)

section
variable (self : Nat) (ctx : CallCtx)

/-- `atomic_rwlock_rdlock` from `++rwlock->nr_readers` on. -/
def rdlockTail :
    Flow × Rwlock × KState κ :=
  -- the counter that wrapped is put back
  if (rw.nrReaders + 1) % 2 ^ 32 = 0 then (.ret .eagain, rw, k)
  else
    (.ret .ok, { rw with nrReaders := (rw.nrReaders + 1) % 2 ^ 32 },
      (k.threadMakeHbnodeFrom self ctx rw.lastWriterHbNode).2)

def atomicRwlockRdlock (try_ : Bool) (rest : κ) : Flow × Rwlock × KState κ :=
  let (rw, k) := rwlockCheckInit rw k
  if rw.writer = true ∨ rw.nrWritersQueued ≠ 0 then
    if try_ then (.ret .ebusy, rw, k)
    else if (rw.nrReadersQueued + 1) % 2 ^ 32 = 0 then (.ret .eagain, rw, k)
    else
      (.sleeps, { rw with nrReadersQueued := (rw.nrReadersQueued + 1) % 2 ^ 32 },
        k.kleeThreadSleep self rw.wlistReaders rest)
  else rdlockTail rw k self ctx

/-- `atomic_rwlock_wrlock` from `rwlock->writer = 1` on. -/
def wrlockTail :
    Flow × Rwlock × KState κ :=
  let rw := { rw with writer := true }
  let (n, k) := k.kleeAddHbnode self ctx
  if rw.lastReaderHbGroup ≠ 0 then
    let k := k.kleeAddHbedgesFromHbgroup rw.lastReaderHbGroup n
    let k := k.kleeRemoveHbgroup rw.lastReaderHbGroup
    (.ret .ok, { rw with lastReaderHbGroup := 0 }, k)
  else (.ret .ok, rw, k.kleeAddHbedge rw.lastWriterHbNode n)

def atomicRwlockWrlock (try_ : Bool) (rest : κ) : Flow × Rwlock × KState κ :=
  let (rw, k) := rwlockCheckInit rw k
  if rw.writer = true ∨ rw.nrReaders ≠ 0 then
    if try_ then (.ret .ebusy, rw, k)
    else if (rw.nrWritersQueued + 1) % 2 ^ 32 = 0 then (.ret .eagain, rw, k)
    else
      (.sleeps, { rw with nrWritersQueued := (rw.nrWritersQueued + 1) % 2 ^ 32 },
        k.kleeThreadSleep self rw.wlistWriters rest)
  else wrlockTail rw k self ctx

/-- The release itself: the writer's node, or the reader's node and its group. -/
def rwlockRelease : Rwlock × KState κ :=
  let (n, k) := k.kleeAddHbnode self ctx
  if rw.writer then ({ rw with writer := false, lastWriterHbNode := n }, k)
  else
    let group := if rw.lastReaderHbGroup = 0 then n else rw.lastReaderHbGroup
    ({ rw with nrReaders := rw.nrReaders - 1, lastReaderHbGroup := group },
      k.kleeAddHbnodeToHbgroup n group)

end

end

/-- One writer first, when no reader is left; all readers otherwise. -/
def rwlockNotify (n : Nat) (rw : Rwlock) (k : KState κ) (pick : Option Nat) :
    Option (Rwlock × KState κ) :=
  if rw.nrReaders = 0 ∧ rw.nrWritersQueued ≠ 0 then
    (k.kleeThreadNotifyOne n rw.wlistWriters pick).map fun k =>
      ({ rw with nrWritersQueued := rw.nrWritersQueued - 1 }, k)
  else if rw.nrReadersQueued ≠ 0 then
    some ({ rw with nrReadersQueued := 0 }, k.kleeThreadNotifyAll rw.wlistReaders)
  else some (rw, k)

def atomicRwlockUnlock (n : Nat) (rw : Rwlock) (k : KState κ) (self : Nat) (ctx : CallCtx)
    (pick : Option Nat) : Option (Ret × Rwlock × KState κ) :=
  if rw.writer = false ∧ rw.nrReaders = 0 then some (.eperm, rw, k)
  else
    let (rw, k) := rwlockRelease rw k self ctx
    (rwlockNotify n rw k pick).map fun (rw, k) => (.ok, rw, k)

end

/-! ## The system of threads -/

inductive RwOp where
  | rdlock (ctx : Nat) (try_ : Bool)
  | wrlock (ctx : Nat) (try_ : Bool)
  | unlock (ctx : Nat) (pick : Option Nat)
  | resume
  deriving DecidableEq, Repr

/-- One acquisition that is not released yet, and the node recorded for it. -/
structure Hold where
  write : Bool
  acq : Nat
  deriving DecidableEq, Repr

structure Section where
  tid : Nat
  write : Bool
  acq : Nat
  rel : Nat
  deriving DecidableEq, Repr

structure RwSys where
  rw : Rwlock
  engine : KState RwRest
  held : Nat → List Hold
  done : List Section

namespace RwSys

def initial (static : Bool) : RwSys :=
  if static then ⟨.zero, .boot, fun _ => [], []⟩
  else
    let (rw, k) := rwlockInit .boot
    ⟨rw, k, fun _ => [], []⟩

def finish (s : RwSys) (t : Nat) (write : Bool) : Flow × Rwlock × KState RwRest → RwSys
  | (.sleeps, rw, k) => { s with rw := rw, engine := k }
  | (.ret .ok, rw, k) =>
    { s with
      rw := rw
      engine := k.kleeThreadPreempt
      held := Function.update s.held t (⟨write, k.kleeLastHbnode t⟩ :: s.held t) }
  | (.ret _, rw, k) => { s with rw := rw, engine := k.keepTurn t }

/-- Rwlocks are never called by the ignorable wrappers: those wrap mutexes only. -/
def callCtx (ctx : Nat) : CallCtx := ⟨ctx, false⟩

def rdlock (s : RwSys) (t ctx : Nat) (try_ : Bool) : RwSys :=
  s.finish t false (atomicRwlockRdlock s.rw s.engine t (callCtx ctx) try_ (.rdlock ctx))

def wrlock (s : RwSys) (t ctx : Nat) (try_ : Bool) : RwSys :=
  s.finish t true (atomicRwlockWrlock s.rw s.engine t (callCtx ctx) try_ (.wrlock ctx))

/-- The holder's latest acquisition ends. -/
def unlock (n : Nat) (s : RwSys) (t ctx : Nat) (pick : Option Nat) : Option RwSys :=
  match s.held t with
  | [] => none
  | h :: hs =>
    (atomicRwlockUnlock n s.rw s.engine t (callCtx ctx) pick).map fun (res, rw, k) =>
      if res = .ok then
        { rw := rw
          engine := k.kleeThreadPreempt
          held := Function.update s.held t hs
          done := s.done ++ [⟨t, h.write, h.acq, k.kleeLastHbnode t⟩] }
      else { s with rw := rw, engine := k.keepTurn t }

/-- The rest of a lock function after `__thread_sleep`. -/
def resume (s : RwSys) (t : Nat) (rest : RwRest) : RwSys :=
  let (rw, k) := rwlockCheckInit s.rw (s.engine.wakeUp t)
  match rest with
  | .rdlock ctx => s.finish t false (rdlockTail rw k t (callCtx ctx))
  | .wrlock ctx => s.finish t true (wrlockTail rw k t (callCtx ctx))

/-- One thread runs from a switch point to the next. -/
def step (n : Nat) (s : RwSys) : Nat × RwOp → Option RwSys
  | (t, op) =>
    if t < n ∧ s.engine.canRun t then
      match op, s.engine.status t with
      | .rdlock ctx try_, .enabled => some (s.rdlock t ctx try_)
      | .wrlock ctx try_, .enabled => some (s.wrlock t ctx try_)
      | .unlock ctx pick, .enabled => unlock n s t ctx pick
      | .resume, .notified rest => some (s.resume t rest)
      | _, _ => none
    else none

section
variable (s : RwSys)

def Exclusive : Prop :=
  ∀ t h, h ∈ s.held t → h.write = true → s.held t = [h] ∧ ∀ u, u ≠ t → s.held u = []

/-! ## The moves a step is made of

Every step is `checked` followed by one of the moves below, or an unlock: `release`
followed by `notify`. -/

def checked : RwSys :=
  { s with
    rw := (rwlockCheckInit s.rw s.engine).1
    engine := (rwlockCheckInit s.rw s.engine).2 }

def refuse (t : Nat) : RwSys := { s with engine := s.engine.keepTurn t }

def wake (t : Nat) : RwSys := { s with engine := s.engine.wakeUp t }

section
variable (t ctx : Nat)

def sleepRead : RwSys :=
  { s with
    rw := { s.rw with nrReadersQueued := (s.rw.nrReadersQueued + 1) % 2 ^ 32 }
    engine := s.engine.kleeThreadSleep t s.rw.wlistReaders (.rdlock ctx) }

def sleepWrite : RwSys :=
  { s with
    rw := { s.rw with nrWritersQueued := (s.rw.nrWritersQueued + 1) % 2 ^ 32 }
    engine := s.engine.kleeThreadSleep t s.rw.wlistWriters (.wrlock ctx) }

def enterRead : RwSys :=
  s.finish t false (.ret .ok, { s.rw with nrReaders := (s.rw.nrReaders + 1) % 2 ^ 32 },
    (s.engine.threadMakeHbnodeFrom t (callCtx ctx) s.rw.lastWriterHbNode).2)

def enterWrite : RwSys :=
  s.finish t true (wrlockTail s.rw s.engine t (callCtx ctx))

def release (h : Hold) (hs : List Hold) : RwSys :=
  let (rw, k) := rwlockRelease s.rw s.engine t (callCtx ctx)
  { rw := rw
    engine := k
    held := Function.update s.held t hs
    done := s.done ++ [⟨t, h.write, h.acq, k.kleeLastHbnode t⟩] }

end

end

def notify (n : Nat) (s : RwSys) (pick : Option Nat) : Option RwSys :=
  (rwlockNotify n s.rw s.engine pick).map fun (rw, k) =>
    { s with rw := rw, engine := k.kleeThreadPreempt }

section
variable (rw : Rwlock) (k : KState RwRest)

@[simp] lemma rwlockCheckInit_nrReaders : (rwlockCheckInit rw k).1.nrReaders = rw.nrReaders := by
  unfold rwlockCheckInit; split <;> rfl

@[simp] lemma rwlockCheckInit_nrWritersQueued :
    (rwlockCheckInit rw k).1.nrWritersQueued = rw.nrWritersQueued := by
  unfold rwlockCheckInit; split <;> rfl

@[simp] lemma rwlockCheckInit_writer : (rwlockCheckInit rw k).1.writer = rw.writer := by
  unfold rwlockCheckInit; split <;> rfl

@[simp] lemma rwlockCheckInit_status : (rwlockCheckInit rw k).2.status = k.status := by
  unfold rwlockCheckInit; split <;> rfl

lemma rwlockCheckInit_wakeUp (t : Nat) :
    rwlockCheckInit rw (k.wakeUp t) =
      ((rwlockCheckInit rw k).1, (rwlockCheckInit rw k).2.wakeUp t) := by
  unfold rwlockCheckInit; split <;> rfl

end

variable {n : Nat} {pick : Option Nat}

lemma rdlock_cases (s : RwSys) (t ctx : Nat) (try_ : Bool) :
    (s.rw.writer = true ∨ s.rw.nrWritersQueued ≠ 0) ∧ (s.rdlock t ctx try_ = s.checked.refuse t ∨
        s.rdlock t ctx try_ = s.checked.sleepRead t ctx) ∨
    s.rw.writer = false ∧ s.rw.nrWritersQueued = 0 ∧
      ((s.rw.nrReaders + 1) % 2 ^ 32 = 0 ∧ s.rdlock t ctx try_ = s.checked.refuse t ∨
        (s.rw.nrReaders + 1) % 2 ^ 32 ≠ 0 ∧ s.rdlock t ctx try_ = s.checked.enterRead t ctx) := by
  unfold rdlock atomicRwlockRdlock
  dsimp only
  split
  · rename_i hw
    refine .inl ⟨by simpa using hw, ?_⟩
    split
    · exact .inl rfl
    split
    · exact .inl rfl
    · exact .inr rfl
  rename_i hw
  have hw' : s.rw.writer = false ∧ s.rw.nrWritersQueued = 0 := by simpa using hw
  refine .inr ⟨hw'.1, hw'.2, ?_⟩
  unfold rdlockTail
  split
  · rename_i hz
    exact .inl ⟨by simpa using hz, rfl⟩
  · rename_i hz
    exact .inr ⟨by simpa using hz, rfl⟩

lemma wrlock_cases (s : RwSys) (t ctx : Nat) (try_ : Bool) :
    (s.rw.writer = true ∨ s.rw.nrReaders ≠ 0) ∧ (s.wrlock t ctx try_ = s.checked.refuse t ∨
        (s.rw.nrWritersQueued + 1) % 2 ^ 32 ≠ 0 ∧
          s.wrlock t ctx try_ = s.checked.sleepWrite t ctx) ∨
    s.rw.writer = false ∧ s.rw.nrReaders = 0 ∧
      s.wrlock t ctx try_ = s.checked.enterWrite t ctx := by
  unfold wrlock atomicRwlockWrlock
  dsimp only
  split
  · rename_i hw
    refine .inl ⟨by simpa using hw, ?_⟩
    split
    · exact .inl rfl
    split
    · exact .inl rfl
    · rename_i hz
      exact .inr ⟨by simpa using hz, rfl⟩
  · rename_i hw
    have hw' : s.rw.writer = false ∧ s.rw.nrReaders = 0 := by simpa using hw
    exact .inr ⟨hw'.1, hw'.2, rfl⟩

lemma resume_rdlock (s : RwSys) (t c : Nat) :
    (s.rw.nrReaders + 1) % 2 ^ 32 = 0 ∧ s.resume t (.rdlock c) = (s.checked.wake t).refuse t ∨
    (s.rw.nrReaders + 1) % 2 ^ 32 ≠ 0 ∧
      s.resume t (.rdlock c) = (s.checked.wake t).enterRead t c := by
  unfold resume
  rw [rwlockCheckInit_wakeUp]
  dsimp only
  unfold rdlockTail
  split
  · rename_i hz
    exact .inl ⟨by simpa using hz, rfl⟩
  · rename_i hz
    exact .inr ⟨by simpa using hz, rfl⟩

lemma resume_wrlock (s : RwSys) (t c : Nat) :
    s.resume t (.wrlock c) = (s.checked.wake t).enterWrite t c := by
  unfold resume
  rw [rwlockCheckInit_wakeUp]
  rfl

section
variable {κ : Type} {rw rw' : Rwlock} {k k' : KState κ}
  (h : rwlockNotify n rw k pick = some (rw', k'))
include h

lemma rwlockNotify_cases :
    (rw.nrReaders = 0 ∧ rw.nrWritersQueued ≠ 0 ∧
      rw' = { rw with nrWritersQueued := rw.nrWritersQueued - 1 } ∧
      k.kleeThreadNotifyOne n rw.wlistWriters pick = some k') ∨
    ((rw.nrReaders ≠ 0 ∨ rw.nrWritersQueued = 0) ∧
      (rw' = { rw with nrReadersQueued := 0 } ∧ k' = k.kleeThreadNotifyAll rw.wlistReaders ∨
        rw' = rw ∧ k' = k)) := by
  unfold rwlockNotify at h
  split at h
  · rename_i hw
    obtain ⟨k₁, hk, heq⟩ := Option.map_eq_some_iff.1 h
    cases heq
    exact .inl ⟨hw.1, hw.2, rfl, hk⟩
  refine .inr ⟨by omega, ?_⟩
  split at h
  · cases h
    exact .inl ⟨rfl, rfl⟩
  · cases h
    exact .inr ⟨rfl, rfl⟩

lemma rwlockNotify_frame :
    k'.lastHbNode = k.lastHbNode ∧ k'.hbGraph = k.hbGraph ∧ rw'.writer = rw.writer ∧
    rw'.nrReaders = rw.nrReaders ∧ rw'.lastWriterHbNode = rw.lastWriterHbNode ∧
    rw'.lastReaderHbGroup = rw.lastReaderHbGroup := by
  rcases rwlockNotify_cases h with ⟨-, -, rfl, hk⟩ | ⟨-, ⟨rfl, rfl⟩ | ⟨rfl, rfl⟩⟩
  · rcases KState.kleeThreadNotifyOne_cases hk with ⟨-, rfl, -⟩ | ⟨w, rest, -, -, -, rfl⟩ <;>
      exact ⟨rfl, rfl, rfl, rfl, rfl, rfl⟩
  · exact ⟨rfl, rfl, rfl, rfl, rfl, rfl⟩
  · exact ⟨rfl, rfl, rfl, rfl, rfl, rfl⟩

end

lemma unlock_cases (h : unlock n s t ctx pick = some s') :
    ∃ hd hs, s.held t = hd :: hs ∧ (s.rw.writer = false ∧ s.rw.nrReaders = 0 ∧ s' = s.refuse t ∨
        (s.rw.writer = true ∨ s.rw.nrReaders ≠ 0) ∧
          notify n (s.release t ctx hd hs) pick = some s') := by
  unfold unlock at h
  cases hheld : s.held t with
  | nil => simp [hheld] at h
  | cons hd hs =>
    refine ⟨hd, hs, rfl, ?_⟩
    simp only [hheld, atomicRwlockUnlock] at h
    split at h
    · rename_i hp
      cases h
      exact .inl ⟨hp.1, hp.2, rfl⟩
    rename_i hp
    refine .inr ⟨by simpa [or_iff_not_imp_left] using hp, ?_⟩
    obtain ⟨⟨res, rw, k⟩, hr, rfl⟩ := Option.map_eq_some_iff.1 h
    obtain ⟨⟨rw₁, k₁⟩, hn, heq⟩ := Option.map_eq_some_iff.1 hr
    cases heq
    have hlast := (rwlockNotify_frame hn).1
    simp [notify, release, hn, KState.kleeLastHbnode, hlast]

lemma step_cases (h : step n s (t, op) = some s') :
    t < n ∧ s.engine.canRun t = true ∧
    ((∃ ctx try_, op = .rdlock ctx try_ ∧ s.engine.status t = .enabled ∧
        s' = s.rdlock t ctx try_) ∨
      (∃ ctx try_, op = .wrlock ctx try_ ∧ s.engine.status t = .enabled ∧
        s' = s.wrlock t ctx try_) ∨
      (∃ ctx pick, op = .unlock ctx pick ∧ s.engine.status t = .enabled ∧
        unlock n s t ctx pick = some s') ∨
      (∃ rest, op = .resume ∧ s.engine.status t = .notified rest ∧ s' = s.resume t rest)) := by
  unfold step at h
  dsimp only at h
  split at h
  · rename_i hrun
    refine ⟨hrun.1, hrun.2, ?_⟩
    split at h
    · rename_i ctx try_ hst
      exact .inl ⟨ctx, try_, rfl, hst, (Option.some.inj h).symm⟩
    · rename_i ctx try_ hst
      exact .inr (.inl ⟨ctx, try_, rfl, hst, (Option.some.inj h).symm⟩)
    · rename_i ctx pick hst
      exact .inr (.inr (.inl ⟨ctx, pick, rfl, hst, h⟩))
    · rename_i rest hst
      exact .inr (.inr (.inr ⟨rest, rfl, hst, (Option.some.inj h).symm⟩))
    · cases h
  · cases h

end RwSys

end InputCovSched
