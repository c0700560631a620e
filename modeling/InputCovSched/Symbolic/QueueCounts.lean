import InputCovSched.Symbolic.SyncObjects
import InputCovSched.Lib.WaitQueues

/-!
# The counters beside the waiting lists

`queued` of a mutex and of a condition variable, `init_count - left` of a barrier, the two queued
counters of a rwlock. The sleeper counts itself in before it sleeps; the thread that notifies
counts it out. `Counted` is the invariant of `WaitQueues` for queues on an engine.

The counters are unsigned ints. `queued` may wrap, so it is the number of sleepers modulo
2^32; a barrier has at most `init_count` waiters, and a rwlock refuses to count beyond the
range.
-/

namespace InputCovSched

open WaitQueues Option
open Function (update update_comm update_eq_self update_idem update_of_ne update_self)

/-- The list that the thread sleeps on. -/
def Status.on {κ : Type} : Status κ → Option Nat
  | .asleep wlist _ => some wlist
  | _ => none

/-- How many of the threads below `n` sleep on the list. -/
def KState.asleep {κ : Type} (n : Nat) (k : KState κ) (wlist : Nat) : Nat :=
  Tally.countIf n (Status.waitsOn wlist) k.status

/-- The three ways to count: `queued` of mutexes and conditions, `left` of a barrier, and the queued
counters of a rwlock, which are checked for overflow. -/
inductive QueueCount where
  | wrapping (queued : Nat)
  | arrivals (initCount left : Nat)
  | guarded (queued : Nat)

/-- What the counter shows when `a` threads sleep. -/
def QueueCount.Agrees : QueueCount → Nat → Prop
  | .wrapping queued, a => queued = a % 2 ^ 32
  | .arrivals initCount left, a =>
    initCount < 2 ^ 32 ∧ left ≤ initCount ∧ (initCount ≠ 0 → left ≠ 0) ∧ initCount - left = a
  | .guarded queued, a => queued = a ∧ queued < 2 ^ 32

def Mutex.queue (m : Mutex) : Queue QueueCount := ⟨m.wlist, .wrapping m.queued⟩
def Cond.queue (c : Cond) : Queue QueueCount := ⟨c.wlist, .wrapping c.queued⟩
def Barrier.queue (b : Barrier) : Queue QueueCount := ⟨b.wlist, .arrivals b.initCount b.left⟩
def Rwlock.readers (rw : Rwlock) : Queue QueueCount := ⟨rw.wlistReaders, .guarded rw.nrReadersQueued⟩
def Rwlock.writers (rw : Rwlock) : Queue QueueCount := ⟨rw.wlistWriters, .guarded rw.nrWritersQueued⟩

/-- Every counter agrees with its list, and no two objects share a list. -/
def Counted {κ X : Type} (n : Nat) (q : X → Queue QueueCount) (k : KState κ) : Prop :=
  (Table.mk q k.nextWlist fun t => (k.status t).on).Ok QueueCount.Agrees n

lemma KState.asleep_eq {κ : Type} (n : Nat) (k : KState κ) (wlist : Nat) :
    k.asleep n wlist = WaitQueues.asleep n (fun t => (k.status t).on) wlist := by
  apply Tally.countIf_congr
  intro t _
  cases k.status t with
  | asleep w r => rfl
  | enabled => rfl
  | notified r => rfl

section
variable {κ X : Type} [DecidableEq X] {n t : Nat} {q : X → Queue QueueCount} {x y : X}
  {c : Queue QueueCount} {k k' : KState κ}

/-! ## The primitives -/

omit [DecidableEq X] in
/-- Steps that touch neither a status nor a list, such as new nodes in the graph. -/
lemma Counted.frame (h : Counted n q k) (hstatus : k'.status = k.status)
    (hnext : k'.nextWlist = k.nextWlist) : Counted n q k' := by
  unfold Counted
  rw [hstatus, hnext]
  exact h

omit [DecidableEq X] in
/-- A thread may also change its status, if it stays on its list or on none. -/
lemma Counted.frame_on (h : Counted n q k) (hon : ∀ u, (k'.status u).on = (k.status u).on)
    (hnext : k'.nextWlist = k.nextWlist) : Counted n q k' := by
  unfold Counted
  rw [hnext, funext hon]
  exact h

/-- To begin with one object `x`: its queue is the one in the table. -/
lemma Counted.self (h : Counted n q k) (x : X) : Counted n (update q x (q x)) k := by
  rw [update_eq_self]
  exact h

section
variable (h : Counted n (update q x c) k)
include h

lemma Counted.agree : c.value.Agrees (k.asleep n c.wlist) := by
  have := Table.Ok.agree h x
  simp only [update_self] at this
  rw [KState.asleep_eq]
  exact this

/-- `klee_get_wlist` gives `x` a list that nobody sleeps on, so its counter starts at 0. -/
lemma Counted.fresh (hv : v.Agrees 0) :
    Counted n (update q x ⟨k.kleeGetWlist.1, v⟩) k.kleeGetWlist.2 := by
  have := Table.Ok.fresh (x := x) h hv
  simp only [update_idem] at this
  exact this

/-- An object that had no list yet keeps its counter. -/
lemma Counted.firstList (hc : c.wlist = 0) :
    Counted n (update q x ⟨k.kleeGetWlist.1, c.value⟩) k.kleeGetWlist.2 :=
  h.fresh (Table.Ok.agree_zero h (update_self x c q) hc)

lemma Counted.nextWlist_ne_zero : k.nextWlist ≠ 0 := by
  have := Table.Ok.lt h x
  dsimp only at this
  omega

/-- The sleeper has counted itself in: `v` is the counter after that. -/
lemma Counted.sleep (ht : t < n) (hon : (k.status t).on = none) (hc : c.wlist ≠ 0)
    (hv : ∀ a, c.value.Agrees a → v.Agrees (a + 1)) (rest : κ) :
    Counted n (update q x ⟨c.wlist, v⟩) (k.kleeThreadSleep t c.wlist rest) := by
  have := Table.Ok.sleep h (update_self x c q) ht hon hc hv
  simp only [update_idem] at this
  have hfun : (fun u => ((k.kleeThreadSleep t c.wlist rest).status u).on) =
      update (fun u => (k.status u).on) t (some c.wlist) := by
    funext u
    by_cases hu : u = t
    · rw [hu, update_self, KState.kleeThreadSleep_status, update_self]
      rfl
    · rw [update_of_ne hu, KState.kleeThreadSleep_status, update_of_ne hu]
  unfold Counted
  rw [hfun]
  exact this

end

omit [DecidableEq X] in
/-- A thread that was notified is on no list any more. -/
lemma Counted.wakeUp (h : Counted n q k) {rest : κ} (hst : k.status t = .notified rest) :
    Counted n q (k.wakeUp t) := by
  refine h.frame_on (fun u => ?_) rfl
  rw [KState.wakeUp_status]
  by_cases hu : u = t
  · rw [hu, update_self, hst]
    rfl
  · rw [update_of_ne hu]

/-- Where the counter is not 0 there is a thread to wake, and it is counted out. -/
lemma Counted.notifyOne (h : Counted n (update q x c) k)
    (hk : k.kleeThreadNotifyOne n c.wlist pick = some k')
    (hpos : ∀ a, c.value.Agrees a → 0 < a) (hv : ∀ a, c.value.Agrees (a + 1) → v.Agrees a) :
    Counted n (update q x ⟨c.wlist, v⟩) k' := by
  rcases KState.kleeThreadNotifyOne_cases hk with ⟨-, -, hnone⟩ | ⟨u, rest, -, hu, hst, rfl⟩
  · -- nobody waits, against the counter
    have hzero : k.asleep n c.wlist = 0 := Tally.countIf_eq_zero.2 hnone
    have := hpos _ h.agree
    omega
  have hon : (k.status u).on = some c.wlist := by
    rw [hst]
    rfl
  have := Table.Ok.wakeOne h (update_self x c q) hu hon hv
  simp only [update_idem] at this
  have hfun : (fun w => (update k.status u (.notified rest) w).on) =
      update (fun w => (k.status w).on) u none := by
    funext w
    by_cases hw : w = u
    · rw [hw, update_self, update_self]
      rfl
    · rw [update_of_ne hw, update_of_ne hw]
  unfold Counted
  rw [hfun]
  exact this

lemma kleeThreadNotifyAll_on (k : KState κ) (wlist u : Nat) :
    ((k.kleeThreadNotifyAll wlist).status u).on =
      if (k.status u).on = some wlist then none else (k.status u).on := by
  unfold KState.kleeThreadNotifyAll
  dsimp only
  cases hst : k.status u with
  | enabled => rfl
  | notified r => rfl
  | asleep w r =>
    by_cases hw : w = wlist
    · rw [hw]
      simp [Status.waitsOn, Status.wake, Status.on]
    · simp [Status.waitsOn, Status.on, hw]

/-- All are woken, and the counter starts again. -/
lemma Counted.notifyAll (h : Counted n (update q x c) k) (hc : c.wlist ≠ 0) (hv : v.Agrees 0) :
    Counted n (update q x ⟨c.wlist, v⟩) (k.kleeThreadNotifyAll c.wlist) := by
  have := Table.Ok.wakeAll h (update_self x c q) hc hv
  simp only [update_idem] at this
  unfold Counted
  rw [funext (kleeThreadNotifyAll_on k c.wlist)]
  exact this

/-- The checks at the start of each call: an object with no list gets its list. -/
lemma Counted.checkInit (h : Counted n (update q x c) k)
    (hnew : c.wlist = 0 → c' = ⟨k.kleeGetWlist.1, c.value⟩ ∧ k' = k.kleeGetWlist.2)
    (hold : c.wlist ≠ 0 → c' = c ∧ k' = k) :
    Counted n (update q x c') k' ∧ c'.wlist ≠ 0 := by
  by_cases hc : c.wlist = 0
  · obtain ⟨rfl, rfl⟩ := hnew hc
    exact ⟨h.firstList hc, h.nextWlist_ne_zero⟩
  · obtain ⟨rfl, rfl⟩ := hold hc
    exact ⟨h, hc⟩

lemma addNodesFrom_frame (ctxOf : κ → CallCtx) (source : Nat) (k : KState κ)
    (ts : List (Nat × κ)) :
    (k.addNodesFrom ctxOf source ts).status = k.status ∧
      (k.addNodesFrom ctxOf source ts).nextWlist = k.nextWlist := by
  induction ts generalizing k with
  | nil => exact ⟨rfl, rfl⟩
  | cons w ts ih => exact ih _

lemma addNodesTo_frame (ctxOf : κ → CallCtx) (sink : Nat) (k : KState κ) (ts : List (Nat × κ)) :
    (k.addNodesTo ctxOf sink ts).status = k.status ∧
      (k.addNodesTo ctxOf sink ts).nextWlist = k.nextWlist := by
  induction ts generalizing k with
  | nil => exact ⟨rfl, rfl⟩
  | cons w ts ih => exact ih _

lemma kleeThreadNotifyOne_on {wlist : Nat}
    (hk : k.kleeThreadNotifyOne n wlist pick = some k') (hon : (k.status t).on = none) :
    (k'.status t).on = none := by
  rcases KState.kleeThreadNotifyOne_cases hk with ⟨-, rfl, -⟩ | ⟨u, rest, -, -, hst, rfl⟩
  · exact hon
  dsimp only
  by_cases hu : t = u
  · rw [hu, update_self]
    rfl
  · rw [update_of_ne hu]
    exact hon

/-! ## Mutexes -/

section
variable {m : Mutex} {ctx : CallCtx}

lemma Counted.checkMutex (h : Counted n (update q x m.queue) k) :
    Counted n (update q x (mutexCheckInit m k).1.queue) (mutexCheckInit m k).2 ∧
      (mutexCheckInit m k).1.wlist ≠ 0 := by
  refine h.checkInit (fun h0 => ?_) (fun h0 => ?_)
  · unfold mutexCheckInit
    rw [if_pos (show m.wlist = 0 from h0)]
    exact ⟨rfl, rfl⟩
  · unfold mutexCheckInit
    rw [if_neg (show ¬ m.wlist = 0 from h0)]
    exact ⟨rfl, rfl⟩

variable {a : Nat}

/-- Also where the counter wraps. -/
lemma agrees_succ (h : (QueueCount.wrapping queued).Agrees a) :
    (QueueCount.wrapping ((queued + 1) % 2 ^ 32)).Agrees (a + 1) := by
  change queued = a % 2 ^ 32 at h
  show (queued + 1) % 2 ^ 32 = (a + 1) % 2 ^ 32
  omega

/-- A counter that is not 0 has a sleeper, though 2^32 sleepers show as 0. -/
lemma agrees_pos (hq : 0 < queued) (h : (QueueCount.wrapping queued).Agrees a) : 0 < a := by
  change queued = a % 2 ^ 32 at h
  omega

lemma agrees_pred (hq : 0 < queued) (h : (QueueCount.wrapping queued).Agrees (a + 1)) :
    (QueueCount.wrapping (queued - 1)).Agrees a := by
  change queued = (a + 1) % 2 ^ 32 at h
  show queued - 1 = a % 2 ^ 32
  omega

section
variable (h : Counted n (update q x m.queue) k)
include h

/-- A thread that must wait counts itself in and sleeps, unless it only tries. -/
lemma Counted.lockMutex (ht : t < n) (hon : (k.status t).on = none) (try_ : Bool) (rest : κ) :
    Counted n (update q x (atomicMutexLock m k t ctx try_ rest).2.1.queue)
      (atomicMutexLock m k t ctx try_ rest).2.2 := by
  obtain ⟨h1, hw⟩ := h.checkMutex
  have hon1 : ((mutexCheckInit m k).2.status t).on = none := by
    rw [mutexCheckInit_status]
    exact hon
  unfold atomicMutexLock
  generalize mutexCheckInit m k = r at h1 hw hon1
  obtain ⟨m1, k1⟩ := r
  dsimp only at h1 hw hon1 ⊢
  have h2 : Counted n (update q x m1.queue) (k1.threadMakeHbnodeFrom t ctx m1.lastHbNode).2 := h1
  by_cases hmust : m1.mustWait = true
  · rw [if_pos hmust]
    cases try_ with
    | true => exact h2
    | false => exact h2.sleep ht hon1 hw (fun _ => agrees_succ) rest
  · rw [if_neg hmust]
    exact h2

lemma Counted.lockMutexRest {rest : κ} (hst : k.status t = .notified rest) :
    Counted n (update q x (atomicMutexLockRest m k t).1.queue) (atomicMutexLockRest m k t).2 :=
  (h.wakeUp hst).checkMutex.1

/-- The unlock of the owner takes one sleeper out, if `queued` is not 0. -/
lemma Counted.unlockMutex (hr : atomicMutexUnlock n m k t ctx pick = some (r, m', k')) :
    Counted n (update q x m'.queue) k' := by
  obtain ⟨h1, -⟩ := h.checkMutex
  unfold atomicMutexUnlock at hr
  generalize mutexCheckInit m k = p at h1 hr
  obtain ⟨m1, k1⟩ := p
  dsimp only at h1 hr
  split at hr
  · cases hr
    exact h1
  split at hr
  · rename_i hpos
    split at hr
    · cases hr
    rename_i k2 hk
    cases hr
    have h2 : Counted n (update q x m1.queue) (k1.kleeAddHbnode t ctx).2 := h1
    exact h2.notifyOne hk (fun _ => agrees_pos hpos) (fun _ => agrees_pred hpos)
  · cases hr
    exact h1

end

/-- The thread that unlocks does not fall asleep. -/
lemma atomicMutexUnlock_on (hon : (k.status t).on = none)
    (hr : atomicMutexUnlock n m k t ctx pick = some (r, m', k')) : (k'.status t).on = none := by
  unfold atomicMutexUnlock at hr
  have hon1 : ((mutexCheckInit m k).2.status t).on = none := by
    rw [mutexCheckInit_status]
    exact hon
  generalize mutexCheckInit m k = p at hr hon1
  obtain ⟨m1, k1⟩ := p
  dsimp only at hr hon1
  split at hr
  · cases hr
    exact hon1
  split at hr
  · split at hr
    · cases hr
    rename_i k2 hk
    cases hr
    exact kleeThreadNotifyOne_on hk hon1
  · cases hr
    exact hon1

end

/-! ## Condition variables -/

section
variable {c : Cond} {m : Mutex} {ctx : CallCtx}

lemma Counted.checkCond (h : Counted n (update q x c.queue) k) :
    Counted n (update q x (condCheckInit c k).1.queue) (condCheckInit c k).2 ∧
      (condCheckInit c k).1.wlist ≠ 0 := by
  refine h.checkInit (fun h0 => ?_) (fun h0 => ?_)
  · unfold condCheckInit
    rw [if_pos (show c.wlist = 0 from h0)]
    exact ⟨rfl, rfl⟩
  · unfold condCheckInit
    rw [if_neg (show ¬ c.wlist = 0 from h0)]
    exact ⟨rfl, rfl⟩

lemma condCheckInit_status (c : Cond) (k : KState κ) :
    (condCheckInit c k).2.status = k.status := by
  unfold condCheckInit
  split <;> rfl

lemma Counted.swap (hxy : x ≠ y) (h : Counted n (update (update q x a) y b) k) :
    Counted n (update (update q y b) x a) k := by
  rw [update_comm hxy.symm]
  exact h

section
variable (hxy : x ≠ y) (h : Counted n (update (update q x c.queue) y m.queue) k) (ht : t < n)
include hxy h ht

/-- `atomic_cond_wait` unlocks the mutex and then sleeps on the condition: both counters change. -/
lemma Counted.waitCond (hon : (k.status t).on = none) {rest : κ}
    (hr : atomicCondWait n c i m k t ctx pick rest = some (flow, c', m', k')) :
    Counted n (update (update q x c'.queue) y m'.queue) k' := by
  obtain ⟨h1, hw⟩ := (h.swap hxy).checkCond
  have hon1 : ((condCheckInit c k).2.status t).on = none := by
    rw [condCheckInit_status]
    exact hon
  unfold atomicCondWait at hr
  generalize condCheckInit c k = p at h1 hw hon1 hr
  obtain ⟨c1, k1⟩ := p
  dsimp only at h1 hw hon1 hr
  split at hr
  · cases hr
  -- the mutex of the waiters is noted
  have hc2 : (if 0 < c1.queued then c1 else { c1 with mutex := some i }).queue = c1.queue := by
    split <;> rfl
  generalize (if 0 < c1.queued then c1 else { c1 with mutex := some i }) = c2 at hc2 hr
  have hw2 : c2.queue.wlist ≠ 0 := by
    rw [hc2]
    exact hw
  rw [← hc2] at h1
  split at hr
  · cases hr
  · rename_i m2 k2 hu
    cases hr
    have h2 := ((h1.swap hxy.symm).unlockMutex hu).swap hxy
    have h3 := h2.sleep ht (atomicMutexUnlock_on hon1 hu) hw2 (fun _ => agrees_succ) rest
    exact h3.swap hxy.symm
  · rename_i m2 k2 _ hu
    cases hr
    exact (h1.swap hxy.symm).unlockMutex hu

/-- After the wake-up the mutex is locked again, and the thread may sleep on that. -/
lemma Counted.waitCondRest {rest : κ} (hst : k.status t = .notified rest) (rest' : κ) :
    Counted n (update (update q x (atomicCondWaitRest c m k t ctx rest').2.1.queue) y
        (atomicCondWaitRest c m k t ctx rest').2.2.1.queue)
      (atomicCondWaitRest c m k t ctx rest').2.2.2 := by
  have h1 := (((h.wakeUp hst).swap hxy).checkCond.1).swap hxy.symm
  apply h1.lockMutex ht
  rw [condCheckInit_status, KState.wakeUp_status, update_self]
  rfl

end

/-- A signal takes one sleeper out and a broadcast all of them. -/
lemma Counted.notifyCond (h : Counted n (update q x c.queue) k) {all : Bool}
    (hr : atomicCondNotify n c k t ctx ctxOf all pick = some (c', k')) :
    Counted n (update q x c'.queue) k' := by
  obtain ⟨h1, hw⟩ := h.checkCond
  unfold atomicCondNotify at hr
  generalize condCheckInit c k = p at h1 hw hr
  obtain ⟨c1, k1⟩ := p
  dsimp only at h1 hw hr
  have h2 : Counted n (update q x c1.queue) (k1.kleeAddHbnode t ctx).2 := h1
  generalize k1.kleeAddHbnode t ctx = r at h2 hr
  obtain ⟨node, k2⟩ := r
  split at hr
  · rename_i hpos
    split at hr
    · cases hr
      have h3 := h2.notifyAll hw (v := .wrapping 0) rfl
      obtain ⟨hs, hn⟩ := addNodesFrom_frame ctxOf node (k2.kleeThreadNotifyAll c1.wlist)
        (k2.waiters n c1.wlist)
      exact h3.frame hs hn
    unfold KState.notifyOneFrom at hr
    rw [map_map, map_eq_some_iff] at hr
    obtain ⟨k3, hk, hr⟩ := hr
    cases hr
    have h3 := h2.notifyOne hk (fun _ => agrees_pos hpos) (fun _ => agrees_pred hpos)
    obtain ⟨hs, hn⟩ := addNodesFrom_frame ctxOf node k3
      ((k2.waiters n c1.wlist).filter fun w => some w.1 == pick)
    exact h3.frame hs hn
  · cases hr
    exact h2

end

/-! ## Barriers -/

section
variable {b : Barrier}

lemma Counted.checkBarrier (h : Counted n (update q x b.queue) k) :
    Counted n (update q x (barrierCheckInit b k).1.queue) (barrierCheckInit b k).2 ∧
      (barrierCheckInit b k).1.wlist ≠ 0 := by
  refine h.checkInit (fun h0 => ?_) (fun h0 => ?_)
  · unfold barrierCheckInit
    rw [if_pos (show b.wlist = 0 from h0)]
    exact ⟨rfl, rfl⟩
  · unfold barrierCheckInit
    rw [if_neg (show ¬ b.wlist = 0 from h0)]
    exact ⟨rfl, rfl⟩

lemma barrierCheckInit_status (b : Barrier) (k : KState κ) :
    (barrierCheckInit b k).2.status = k.status := by
  unfold barrierCheckInit
  split <;> rfl

lemma arrive_left (h0 : b.left ≠ 0) : b.arrive.left = b.left - 1 := if_neg h0

variable {a : Nat}

/-- An arrival that is not the last one. -/
lemma agrees_arrive (hinit : b.initCount ≠ 0) (hleft : b.arrive.left ≠ 0)
    (h : (QueueCount.arrivals b.initCount b.left).Agrees a) :
    (QueueCount.arrivals b.initCount b.arrive.left).Agrees (a + 1) := by
  obtain ⟨h1, h2, h3, h4⟩ := h
  have h3 := h3 hinit
  rw [arrive_left h3] at hleft ⊢
  exact ⟨h1, by omega, fun _ => hleft, by omega⟩

section
variable (hinit : b.initCount ≠ 0) (h : (QueueCount.arrivals b.initCount b.left).Agrees a)
include hinit h

/-- At the last arrival all the others sleep. -/
lemma agrees_last (hleft : b.arrive.left = 0) : a + 1 = b.initCount := by
  obtain ⟨h1, h2, h3, h4⟩ := h
  have h3 := h3 hinit
  rw [arrive_left h3] at hleft
  omega

lemma agrees_reset :
    (QueueCount.arrivals b.initCount b.initCount).Agrees 0 :=
  ⟨h.1, le_rfl, fun _ => hinit, Nat.sub_self _⟩

end

/-- The last thread to arrive wakes all others and resets `left`; the others sleep. -/
lemma Counted.waitBarrier (h : Counted n (update q x b.queue) k) (ht : t < n)
    (hon : (k.status t).on = none) (ctx : CallCtx) (ctxOf : κ → CallCtx) (rest : κ) :
    Counted n (update q x (pthreadBarrierWait n b k t ctx ctxOf rest).2.1.queue)
      (pthreadBarrierWait n b k t ctx ctxOf rest).2.2 := by
  obtain ⟨h1, hw⟩ := h.checkBarrier
  have hon1 : ((barrierCheckInit b k).2.status t).on = none := by
    rw [barrierCheckInit_status]
    exact hon
  unfold pthreadBarrierWait
  generalize barrierCheckInit b k = r at h1 hw hon1
  obtain ⟨b1, k1⟩ := r
  dsimp only at h1 hw hon1 ⊢
  by_cases hinit : b1.initCount = 0
  · rw [if_pos hinit]
    exact h1
  rw [if_neg hinit]
  by_cases hleft : b1.arrive.left = 0
  · rw [if_pos hleft]
    -- everybody is woken, and the barrier starts again
    have h2 : Counted n (update q x b1.queue) (k1.kleeAddHbnode t ctx).2 := h1
    generalize k1.kleeAddHbnode t ctx = r at h2
    obtain ⟨serial, k2⟩ := r
    have h3 := h2.notifyAll hw (agrees_reset hinit h1.agree)
    have hto := addNodesTo_frame ctxOf serial (k2.kleeThreadNotifyAll b1.wlist)
      (k2.waiters n b1.wlist)
    have hfrom := addNodesFrom_frame ctxOf serial
      ((k2.kleeThreadNotifyAll b1.wlist).addNodesTo ctxOf serial (k2.waiters n b1.wlist))
      (k2.waiters n b1.wlist)
    have h4 : Counted n (update q x ⟨b1.wlist, .arrivals b1.initCount b1.initCount⟩)
        (k2.notifyAllAround n b1.wlist ctxOf serial) :=
      h3.frame (hfrom.1.trans hto.1) (hfrom.2.trans hto.2)
    exact Counted.checkBarrier h4 |>.1
  · rw [if_neg hleft]
    exact h1.sleep ht hon1 hw (fun _ => agrees_arrive hinit hleft) rest

end

/-! ## Rwlocks -/

section
variable {rw : Rwlock}

/-- The table with the two queues of a rwlock at `x` and `y`. -/
def withRwlock (q : X → Queue QueueCount) (x y : X) (rw : Rwlock) : X → Queue QueueCount :=
  update (update q x rw.readers) y rw.writers

/-- The check of a rwlock looks at one list only: it has both or none. -/
def Rwlock.BothLists (rw : Rwlock) : Prop := rw.wlistReaders = 0 ↔ rw.wlistWriters = 0

lemma Rwlock.bothLists (hr : rw.wlistReaders ≠ 0) (hw : rw.wlistWriters ≠ 0) : rw.BothLists :=
  ⟨fun h => absurd h hr, fun h => absurd h hw⟩

lemma rwlockCheckInit_on (rw : Rwlock) (k : KState κ) (hon : (k.status t).on = none) :
    ((rwlockCheckInit rw k).2.status t).on = none := by
  unfold rwlockCheckInit
  split <;> exact hon

/-- The invariant for the two queues of a rwlock. -/
structure RwCounted (n : Nat) (q : X → Queue QueueCount) (x y : X) (rw : Rwlock) (k : KState κ) :
    Prop where
  counted : Counted n (withRwlock q x y rw) k
  lists : rw.BothLists

lemma Counted.getWlists (hxy : x ≠ y) (h : Counted n (withRwlock q x y rw) k)
    (hr : (QueueCount.guarded rw.nrReadersQueued).Agrees 0)
    (hw : (QueueCount.guarded rw.nrWritersQueued).Agrees 0) :
    Counted n (withRwlock q x y (rw.getWlists k).1) (rw.getWlists k).2 := by
  have h1 := (Counted.swap hxy h).fresh hr
  exact (h1.swap hxy.symm).fresh hw

/-- After the check both lists are there. -/
lemma RwCounted.check (hxy : x ≠ y) (h : RwCounted n q x y rw k) :
    RwCounted n q x y (rwlockCheckInit rw k).1 (rwlockCheckInit rw k).2 ∧
      (rwlockCheckInit rw k).1.wlistReaders ≠ 0 ∧ (rwlockCheckInit rw k).1.wlistWriters ≠ 0 := by
  obtain ⟨h, hboth⟩ := h
  unfold rwlockCheckInit
  by_cases h0 : rw.wlistReaders = 0
  · rw [if_pos h0]
    have hr := (Table.Ok.agree_zero (Counted.swap hxy h) (update_self ..) h0)
    have hw := (Table.Ok.agree_zero h (update_self ..) (hboth.1 h0))
    have hnext := Counted.nextWlist_ne_zero h
    exact ⟨⟨h.getWlists hxy hr hw, Rwlock.bothLists hnext (Nat.succ_ne_zero _)⟩, hnext,
      Nat.succ_ne_zero _⟩
  · rw [if_neg h0]
    exact ⟨⟨h, hboth⟩, h0, fun hw0 => h0 (hboth.2 hw0)⟩

/-- The overflow of a counter is refused before the thread sleeps. -/
lemma agrees_guarded_succ (hq : (queued + 1) % 2 ^ 32 ≠ 0)
    (h : (QueueCount.guarded queued).Agrees a) :
    (QueueCount.guarded ((queued + 1) % 2 ^ 32)).Agrees (a + 1) := by
  obtain ⟨rfl, hlt⟩ := h
  constructor
  · omega
  · omega

lemma agrees_guarded_pos (hq : queued ≠ 0) (h : (QueueCount.guarded queued).Agrees a) :
    0 < a := by
  obtain ⟨rfl, -⟩ := h
  omega

lemma agrees_guarded_pred (h : (QueueCount.guarded queued).Agrees (a + 1)) :
    (QueueCount.guarded (queued - 1)).Agrees a := by
  obtain ⟨rfl, hlt⟩ := h
  constructor
  · omega
  · omega

lemma agrees_guarded_zero : (QueueCount.guarded 0).Agrees 0 := ⟨rfl, by omega⟩

lemma RwCounted.rdlockTail (h : RwCounted n q x y rw k) :
    RwCounted n q x y (rdlockTail rw k t ctx).2.1 (rdlockTail rw k t ctx).2.2 := by
  unfold InputCovSched.rdlockTail
  split
  · exact h
  · exact ⟨h.counted, h.lists⟩

lemma RwCounted.wrlockTail (h : RwCounted n q x y rw k) :
    RwCounted n q x y (wrlockTail rw k t ctx).2.1 (wrlockTail rw k t ctx).2.2 := by
  unfold InputCovSched.wrlockTail
  dsimp only
  split
  · exact ⟨h.counted, h.lists⟩
  · exact ⟨h.counted, h.lists⟩

section
variable (hxy : x ≠ y) (h : RwCounted n q x y rw k) (ht : t < n) (hon : (k.status t).on = none)
  (try_ : Bool) (rest : κ)
include hxy h ht hon try_ rest

/-- A reader that must wait counts itself in and sleeps on the readers' list. -/
lemma RwCounted.rdlock :
    RwCounted n q x y (atomicRwlockRdlock rw k t ctx try_ rest).2.1
      (atomicRwlockRdlock rw k t ctx try_ rest).2.2 := by
  obtain ⟨h1, hr, hw⟩ := h.check hxy
  have hon1 := rwlockCheckInit_on rw k hon
  unfold atomicRwlockRdlock
  generalize rwlockCheckInit rw k = r at h1 hr hw hon1
  obtain ⟨rw1, k1⟩ := r
  dsimp only at h1 hr hw hon1 ⊢
  split
  · split
    · exact h1
    split
    · exact h1
    rename_i hq
    have h2 := (Counted.swap hxy h1.counted).sleep ht hon1 hr (fun _ => agrees_guarded_succ hq) rest
    exact ⟨h2.swap hxy.symm, h1.lists⟩
  · exact h1.rdlockTail

/-- A writer that must wait counts itself in and sleeps on the writers' list. -/
lemma RwCounted.wrlock :
    RwCounted n q x y (atomicRwlockWrlock rw k t ctx try_ rest).2.1
      (atomicRwlockWrlock rw k t ctx try_ rest).2.2 := by
  obtain ⟨h1, hr, hw⟩ := h.check hxy
  have hon1 := rwlockCheckInit_on rw k hon
  unfold atomicRwlockWrlock
  generalize rwlockCheckInit rw k = r at h1 hr hw hon1
  obtain ⟨rw1, k1⟩ := r
  dsimp only at h1 hr hw hon1 ⊢
  split
  · split
    · exact h1
    split
    · exact h1
    · rename_i hq
      exact ⟨.sleep h1.counted ht hon1 hw (fun _ => agrees_guarded_succ hq) rest, h1.lists⟩
  · exact h1.wrlockTail

end

section
variable (h : RwCounted n q x y rw k)
include h

lemma RwCounted.release :
    RwCounted n q x y (rwlockRelease rw k t ctx).1 (rwlockRelease rw k t ctx).2 := by
  unfold rwlockRelease
  dsimp only
  split
  · exact ⟨h.counted, h.lists⟩
  · exact ⟨h.counted, h.lists⟩

/-- One writer is woken, or else all readers. -/
lemma RwCounted.notify (hxy : x ≠ y)
    (hr : rwlockNotify n rw k pick = some (rw', k')) : RwCounted n q x y rw' k' := by
  obtain ⟨h, hboth⟩ := h
  unfold rwlockNotify at hr
  split at hr
  · rename_i hq
    rw [map_eq_some_iff] at hr
    obtain ⟨k2, hk, hr⟩ := hr
    cases hr
    exact ⟨.notifyOne h hk (fun _ => agrees_guarded_pos hq.2) (fun _ => agrees_guarded_pred),
      hboth⟩
  split at hr
  · rename_i hq
    cases hr
    -- somebody waits, so there is a list
    have hlist : rw.readers.wlist ≠ 0 := by
      intro h0
      have := Table.Ok.agree_zero (Counted.swap hxy h) (update_self ..) h0
      exact hq this.1
    have h2 := (Counted.swap hxy h).notifyAll hlist agrees_guarded_zero
    exact ⟨h2.swap hxy.symm, hboth⟩
  · cases hr
    exact ⟨h, hboth⟩

/-- An unlock that leaves the lock free wakes the next ones. -/
lemma RwCounted.unlock (hxy : x ≠ y)
    (hr : atomicRwlockUnlock n rw k t ctx pick = some (r, rw', k')) : RwCounted n q x y rw' k' := by
  unfold atomicRwlockUnlock at hr
  split at hr
  · cases hr
    exact h
  rw [map_eq_some_iff] at hr
  obtain ⟨⟨rw2, k2⟩, hk, hr⟩ := hr
  cases hr
  exact h.release.notify hxy hk

end

end

end

end InputCovSched
