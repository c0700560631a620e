import InputCovSched.Symbolic.QueueCounts

/-!
# The counters of the pthread models count the sleepers

For any number of threads and objects and any interleaving of the calls:

    whenever no model function is on the processor, the number an object keeps is that of
    the threads asleep on its list, and it is what every notify passes on  (queueCounts_agree)

`notifies` lists the notifies of a step with the expected queue size that each passes on; a
step wakes nobody else (`step_wakes`).
-/

namespace InputCovSched

open WaitQueues List Option
open Function (update update_of_ne update_self)

inductive SyncQueue where
  | mutex (i : Nat)
  | cond (i : Nat)
  | barrier (i : Nat)
  | readers (i : Nat)
  | writers (i : Nat)
  deriving DecidableEq

namespace SyncSys

def queues (s : SyncSys) : SyncQueue → Queue QueueCount
  | .mutex i => (s.mutexes i).queue
  | .cond i => (s.conds i).queue
  | .barrier i => (s.barriers i).queue
  | .readers i => (s.rwlocks i).readers
  | .writers i => (s.rwlocks i).writers

structure Inv (n : Nat) (s : SyncSys) : Prop where
  counted : Counted n s.queues s.engine
  lists : ∀ i, (s.rwlocks i).BothLists

variable {n t i j : Nat} {s s' : SyncSys} {k : KState SyncRest}

lemma queues_setMutex (s : SyncSys) (i : Nat) (m : Mutex) (k : KState SyncRest) :
    (s.setMutex i m k).queues = update s.queues (.mutex i) m.queue := by
  funext x
  cases x with
  | mutex j => by_cases hj : j = i <;> simp [setMutex, queues, hj]
  | _ => rfl

lemma queues_setCond (s : SyncSys) (i : Nat) (c : Cond) (k : KState SyncRest) :
    (s.setCond i c k).queues = update s.queues (.cond i) c.queue := by
  funext x
  cases x with
  | cond j => by_cases hj : j = i <;> simp [setCond, queues, hj]
  | _ => rfl

lemma queues_setBarrier (s : SyncSys) (i : Nat) (b : Barrier) (k : KState SyncRest) :
    (s.setBarrier i b k).queues = update s.queues (.barrier i) b.queue := by
  funext x
  cases x with
  | barrier j => by_cases hj : j = i <;> simp [setBarrier, queues, hj]
  | _ => rfl

lemma queues_setRwlock (s : SyncSys) (i : Nat) (rw : Rwlock) (k : KState SyncRest) :
    (s.setRwlock i rw k).queues = withRwlock s.queues (.readers i) (.writers i) rw := by
  funext x
  cases x with
  | readers j | writers j => by_cases hj : j = i <;> simp [setRwlock, queues, withRwlock, hj]
  | _ => rfl

lemma leave_frame (t : Nat) (k : KState SyncRest) (flow : Flow) :
    (leave t k flow).status = k.status ∧ (leave t k flow).nextWlist = k.nextWlist := by
  cases flow with
  | sleeps => exact ⟨rfl, rfl⟩
  | ret r => cases r <;> exact ⟨rfl, rfl⟩

variable {x : SyncQueue} {rw : Rwlock} {m : Mutex} {c : Cond} {b : Barrier} {op : Option SyncCall}

lemma counted_leave (h : Counted n q k) (flow : Flow) : Counted n q (leave t k flow) :=
  h.frame (leave_frame t k flow).1 (leave_frame t k flow).2

lemma rwCounted_leave (h : RwCounted n q x y rw k) (flow : Flow) :
    RwCounted n q x y rw (leave t k flow) :=
  ⟨counted_leave h.counted flow, h.lists⟩

section
variable (h : Inv n s)
include h

lemma Inv.mutex (i : Nat) : Counted n (update s.queues (.mutex i) (s.mutexes i).queue) s.engine :=
  h.counted.self (.mutex i)

lemma Inv.cond (i : Nat) : Counted n (update s.queues (.cond i) (s.conds i).queue) s.engine :=
  h.counted.self (.cond i)

lemma Inv.barrier (i : Nat) :
    Counted n (update s.queues (.barrier i) (s.barriers i).queue) s.engine :=
  h.counted.self (.barrier i)

lemma Inv.condMutex (i j : Nat) :
    Counted n (update (update s.queues (.cond i) (s.conds i).queue) (.mutex j)
      (s.mutexes j).queue) s.engine :=
  (h.cond i).self (.mutex j)

lemma Inv.rwlock (i : Nat) :
    RwCounted n s.queues (.readers i) (.writers i) (s.rwlocks i) s.engine :=
  ⟨(h.counted.self (.readers i)).self (.writers i), h.lists i⟩

lemma Inv.setMutex (hm : Counted n (update s.queues (.mutex i) m.queue) k) :
    Inv n (s.setMutex i m k) :=
  ⟨by rw [queues_setMutex]; exact hm, h.lists⟩

lemma Inv.setCond (hc : Counted n (update s.queues (.cond i) c.queue) k) :
    Inv n (s.setCond i c k) :=
  ⟨by rw [queues_setCond]; exact hc, h.lists⟩

lemma Inv.setBarrier (hb : Counted n (update s.queues (.barrier i) b.queue) k) :
    Inv n (s.setBarrier i b k) :=
  ⟨by rw [queues_setBarrier]; exact hb, h.lists⟩

lemma Inv.setCondMutex
    (hm : Counted n (update (update s.queues (.cond i) c.queue) (.mutex j) m.queue) k) :
    Inv n ((s.setCond i c k').setMutex j m k) :=
  ⟨by rw [queues_setMutex, queues_setCond]; exact hm, h.lists⟩

lemma Inv.setRwlock (hrw : RwCounted n s.queues (.readers i) (.writers i) rw k) :
    Inv n (s.setRwlock i rw k) := by
  refine ⟨by rw [queues_setRwlock]; exact hrw.counted, fun j => ?_⟩
  show (update s.rwlocks i rw j).BothLists
  by_cases hj : j = i
  · rw [hj, update_self]
    exact hrw.lists
  · rw [update_of_ne hj]
    exact h.lists j

end

lemma inv_initial (n : Nat) : Inv n initial := by
  have hq : ∀ x, (initial.queues x).wlist = 0 ∧ (initial.queues x).value.Agrees 0 := by
    intro x
    cases x with
    | mutex i => exact ⟨rfl, rfl⟩
    | cond i => exact ⟨rfl, rfl⟩
    | barrier i => exact ⟨rfl, Nat.two_pow_pos 32, Nat.le_refl 0, fun h => absurd rfl h, rfl⟩
    | readers i | writers i => exact ⟨rfl, agrees_guarded_zero⟩
  refine ⟨⟨fun x => ?_, fun x y _ h0 => absurd (hq x).1 h0, fun u w _ hon => ?_, fun x => ?_⟩,
    fun _ => Iff.rfl⟩
  · rw [(hq x).1]
    exact one_pos
  · cases hon
  · have hzero : WaitQueues.asleep n (fun u => ((initial.engine).status u).on) 0 = 0 :=
      asleep_eq_zero.2 nofun
    rw [(hq x).1, hzero]
    exact (hq x).2

lemma inv_call (h : Inv n s) (ht : t < n) (hst : s.engine.status t = .enabled) {c : SyncCall}
    (hr : call n s t c = some s') : Inv n s' := by
  have hon : (s.engine.status t).on = none := by
    rw [hst]
    rfl
  have hrw : ∀ i, SyncQueue.readers i ≠ SyncQueue.writers i := fun i => by simp
  have hcm : ∀ i j, SyncQueue.cond i ≠ SyncQueue.mutex j := fun i j => by simp
  cases c with
  | mutexInit i =>
    cases hr
    exact h.setMutex ((h.mutex i).fresh rfl)
  | mutexLock i ctx try_ =>
    cases hr
    exact h.setMutex (counted_leave ((h.mutex i).lockMutex ht hon try_ _) _)
  | mutexUnlock i ctx pick =>
    obtain ⟨⟨r, m, k⟩, hu, rfl⟩ := map_eq_some_iff.1 hr
    exact h.setMutex (((h.mutex i).unlockMutex hu).frame rfl rfl)
  | condInit i =>
    cases hr
    exact h.setCond ((h.cond i).fresh rfl)
  | condWait i j ctx pick =>
    obtain ⟨⟨flow, c, m, k⟩, hu, rfl⟩ := map_eq_some_iff.1 hr
    exact h.setCondMutex (counted_leave ((h.condMutex i j).waitCond (hcm i j) ht hon hu) _)
  | condNotify i ctx all pick =>
    obtain ⟨⟨c, k⟩, hu, rfl⟩ := map_eq_some_iff.1 hr
    exact h.setCond (((h.cond i).notifyCond hu).frame rfl rfl)
  | barrierInit i count =>
    simp only [call] at hr
    split at hr
    · cases hr
    split at hr
    · obtain rfl := Option.some.inj hr
      exact ⟨h.counted, h.lists⟩
    rename_i h0
    obtain rfl := Option.some.inj hr
    have hv : (QueueCount.arrivals count count).Agrees 0 :=
      ⟨by omega, le_rfl, fun _ => h0, Nat.sub_self _⟩
    exact h.setBarrier ((h.barrier i).fresh hv)
  | barrierWait i ctx =>
    simp only [call] at hr
    cases hr
    have hw := (h.barrier i).waitBarrier ht hon ctx SyncRest.ctx (.barrierWait i ctx)
    apply h.setBarrier
    split
    · exact hw
    · exact hw.frame rfl rfl
  | rwlockInit i =>
    cases hr
    have hz := (h.rwlock i).counted.swap (hrw i) |>.fresh agrees_guarded_zero
    refine h.setRwlock ⟨(hz.swap (hrw i).symm).fresh agrees_guarded_zero, ?_⟩
    exact Rwlock.bothLists (h.mutex 0).nextWlist_ne_zero (Nat.succ_ne_zero _)
  | rdlock i ctx try_ =>
    cases hr
    exact h.setRwlock (rwCounted_leave ((h.rwlock i).rdlock (hrw i) ht hon try_ _) _)
  | wrlock i ctx try_ =>
    cases hr
    exact h.setRwlock (rwCounted_leave ((h.rwlock i).wrlock (hrw i) ht hon try_ _) _)
  | rwlockUnlock i ctx pick =>
    obtain ⟨⟨r, rw, k⟩, hu, rfl⟩ := map_eq_some_iff.1 hr
    exact h.setRwlock (rwCounted_leave ((h.rwlock i).unlock (hrw i) hu) _)

lemma inv_resume (h : Inv n s) (ht : t < n) {rest : SyncRest}
    (hst : s.engine.status t = .notified rest) : Inv n (s.resume t rest) := by
  have hrw : ∀ i, SyncQueue.readers i ≠ SyncQueue.writers i := fun i => by simp
  cases rest with
  | mutexLock i ctx => exact h.setMutex ((h.mutex i).lockMutexRest hst)
  | condWait i j ctx =>
    exact h.setCondMutex (counted_leave ((h.condMutex i j).waitCondRest (by simp) ht hst _) _)
  | barrierWait i ctx => exact h.setBarrier ((h.barrier i).wakeUp hst).checkBarrier.1
  | rdlock i ctx =>
    have h1 : RwCounted n _ _ _ _ (s.engine.wakeUp t) := ⟨(h.rwlock i).counted.wakeUp hst, h.lists i⟩
    exact h.setRwlock (rwCounted_leave (h1.check (hrw i)).1.rdlockTail _)
  | wrlock i ctx =>
    have h1 : RwCounted n _ _ _ _ (s.engine.wakeUp t) := ⟨(h.rwlock i).counted.wakeUp hst, h.lists i⟩
    exact h.setRwlock (rwCounted_leave (h1.check (hrw i)).1.wrlockTail _)

lemma inv_step (h : Inv n s) {l : Nat × Option SyncCall} (hs : step n s l = some s') :
    Inv n s' := by
  obtain ⟨t, op⟩ := l
  obtain ⟨⟨ht, -⟩, hr⟩ := ite_none_right_eq_some.1 hs
  split at hr
  · rename_i c hst
    exact inv_call h ht hst hr
  · rename_i rest hst
    obtain rfl := Option.some.inj hr
    exact inv_resume h ht hst
  · cases hr

/-! ## The notifies -/

/-- The list and the expected queue size of a `klee_thread_notify`. -/
structure Notify where
  wlist : Nat
  expected : Int
  deriving DecidableEq, Repr

/-- The notify of `atomic_mutex_unlock`, on a mutex that is initialized. -/
def mutexNotify (m : Mutex) (self : Nat) : List Notify :=
  if m.taken = false ∨ m.owner ≠ self then []
  else if 0 < m.queued then [⟨m.wlist, m.queued⟩]
  else []

def condNotify (c : Cond) : List Notify := if 0 < c.queued then [⟨c.wlist, c.queued⟩] else []

/-- `expected` is an int here. -/
def barrierNotify (b : Barrier) : List Notify :=
  if b.initCount = 0 then []
  else if b.arrive.left = 0 then [⟨b.wlist, ((b.initCount : Int) - 1).bmod (2 ^ 32)⟩]
  else []

def readersLeft (rw : Rwlock) : Nat := if rw.writer then rw.nrReaders else rw.nrReaders - 1

def rwlockUnlockNotify (rw : Rwlock) : List Notify :=
  if rw.writer = false ∧ rw.nrReaders = 0 then []
  else if readersLeft rw = 0 ∧ rw.nrWritersQueued ≠ 0 then
    [⟨rw.wlistWriters, rw.nrWritersQueued⟩]
  else if rw.nrReadersQueued ≠ 0 then [⟨rw.wlistReaders, rw.nrReadersQueued⟩]
  else []

/-- The notifies that a thread makes when it takes a step. -/
def notifies (s : SyncSys) (t : Nat) : Option SyncCall → List Notify
  | some (.mutexUnlock i _ _) => mutexNotify (mutexCheckInit (s.mutexes i) s.engine).1 t
  | some (.condWait i j _ _) =>
    mutexNotify (mutexCheckInit (s.mutexes j) (condCheckInit (s.conds i) s.engine).2).1 t
  | some (.condNotify i _ _ _) => condNotify (condCheckInit (s.conds i) s.engine).1
  | some (.barrierWait i _) => barrierNotify (barrierCheckInit (s.barriers i) s.engine).1
  | some (.rwlockUnlock i _ _) => rwlockUnlockNotify (s.rwlocks i)
  | _ => []

/-! ### Nobody is woken but by these notifies -/

def Wakes (k k' : KState SyncRest) (ls : List Notify) : Prop :=
  ∀ u w rest, k.status u = .asleep w rest →
    k'.status u = .asleep w rest ∨ ∃ a, a ∈ ls ∧ a.wlist = w

section
variable {k k' : KState SyncRest} {a : Notify}

lemma Wakes.of_status (h : k'.status = k.status) : Wakes k k' ls := by
  intro u w rest hu
  rw [h]
  exact .inl hu

lemma Wakes.trans (h : Wakes k k' ls) (h' : Wakes k' k'' ls) : Wakes k k'' ls := by
  intro u w rest hu
  rcases h u w rest hu with hu' | hu'
  · exact h' u w rest hu'
  · exact .inr hu'

lemma wakes_update (hon : (k.status t).on = none)
    (h : k'.status = update k.status t st) : Wakes k k' ls := by
  intro u w rest hu
  have hut : u ≠ t := by
    rintro rfl
    rw [hu] at hon
    cases hon
  rw [h, update_of_ne hut]
  exact .inl hu

variable {pick : Option Nat} {rest : SyncRest}

lemma wakes_notifyOne (ha : a ∈ ls) (hk : k.kleeThreadNotifyOne n a.wlist pick = some k') :
    Wakes k k' ls := by
  intro u w rest hu
  rcases KState.kleeThreadNotifyOne_cases hk with ⟨-, rfl, -⟩ | ⟨v, rest', -, -, hst, rfl⟩
  · exact .inl hu
  by_cases huv : u = v
  · rw [huv, hst] at hu
    cases hu
    exact .inr ⟨a, ha, rfl⟩
  refine .inl ?_
  show update k.status v _ u = _
  rw [update_of_ne huv]
  exact hu

lemma wakes_notifyAll (ha : a ∈ ls) : Wakes k (k.kleeThreadNotifyAll a.wlist) ls := by
  intro u w rest hu
  by_cases hw : w = a.wlist
  · exact .inr ⟨a, ha, hw.symm⟩
  refine .inl ?_
  have hno : (k.status u).waitsOn a.wlist = false := by
    rw [hu]
    simpa [Status.waitsOn] using hw
  show (if (k.status u).waitsOn a.wlist then (k.status u).wake else k.status u) = _
  rw [hno]
  exact hu

lemma wakes_mutexLock (hon : (k.status t).on = none) :
    Wakes k (atomicMutexLock m k t ctx try_ rest).2.2 ls := by
  unfold atomicMutexLock
  dsimp only
  have hst : ((mutexCheckInit m k).2.threadMakeHbnodeFrom t ctx
      (mutexCheckInit m k).1.lastHbNode).2.status = k.status := mutexCheckInit_status m k
  split
  · split
    · exact .of_status hst
    · exact wakes_update hon (congrArg (update · t _) hst)
  · exact .of_status hst

lemma wakes_mutexUnlock (hr : atomicMutexUnlock n m k t ctx pick = some (r, m', k')) :
    Wakes k k' (mutexNotify (mutexCheckInit m k).1 t) := by
  have hst : (mutexCheckInit m k).2.status = k.status := mutexCheckInit_status m k
  unfold atomicMutexUnlock at hr
  unfold mutexNotify
  generalize mutexCheckInit m k = p at hr hst
  obtain ⟨m1, k1⟩ := p
  dsimp only at hr hst ⊢
  split at hr
  · cases hr
    exact .of_status hst
  rename_i hno
  rw [if_neg hno]
  split at hr
  · rename_i hpos
    rw [if_pos hpos]
    split at hr
    · cases hr
    rename_i k2 hk
    cases hr
    have h1 : Wakes k (k1.kleeAddHbnode t ctx).2 [⟨m1.wlist, m1.queued⟩] := .of_status hst
    exact h1.trans (wakes_notifyOne (mem_singleton.2 rfl) hk)
  · cases hr
    exact .of_status hst

lemma wakes_condWait (hon : (k.status t).on = none)
    (hr : atomicCondWait n c i m k t ctx pick rest = some (flow, c', m', k')) :
    Wakes k k' (mutexNotify (mutexCheckInit m (condCheckInit c k).2).1 t) := by
  have hst := condCheckInit_status c k
  unfold atomicCondWait at hr
  generalize condCheckInit c k = p at hr hst
  obtain ⟨c1, k1⟩ := p
  dsimp only at hr hst ⊢
  have hon1 : (k1.status t).on = none := by
    rw [hst]
    exact hon
  split at hr
  · cases hr
  split at hr
  · cases hr
  · rename_i m2 k2 hu
    cases hr
    refine ((Wakes.of_status hst).trans (wakes_mutexUnlock hu)).trans ?_
    exact wakes_update (atomicMutexUnlock_on hon1 hu) rfl
  · rename_i m2 k2 _ hu
    cases hr
    exact (Wakes.of_status hst).trans (wakes_mutexUnlock hu)

lemma wakes_condNotify {all : Bool}
    (hr : atomicCondNotify n c k t ctx SyncRest.ctx all pick = some (c', k')) :
    Wakes k k' (condNotify (condCheckInit c k).1) := by
  have hst := condCheckInit_status c k
  unfold atomicCondNotify at hr
  unfold condNotify
  generalize condCheckInit c k = p at hr hst
  obtain ⟨c1, k1⟩ := p
  dsimp only at hr hst ⊢
  have h1 : Wakes k (k1.kleeAddHbnode t ctx).2 [⟨c1.wlist, c1.queued⟩] := .of_status hst
  split at hr
  · rename_i hpos
    rw [if_pos hpos]
    split at hr
    · cases hr
      refine (h1.trans (wakes_notifyAll (mem_singleton.2 rfl))).trans (.of_status ?_)
      exact (addNodesFrom_frame ..).1
    unfold KState.notifyOneFrom at hr
    rw [Option.map_map, Option.map_eq_some_iff] at hr
    obtain ⟨k3, hk, hr⟩ := hr
    cases hr
    refine (h1.trans (wakes_notifyOne (mem_singleton.2 rfl) hk)).trans (.of_status ?_)
    exact (addNodesFrom_frame ..).1
  · cases hr
    exact .of_status hst

lemma wakes_barrierWait (hon : (k.status t).on = none) :
    Wakes k (pthreadBarrierWait n b k t ctx SyncRest.ctx rest).2.2
      (barrierNotify (barrierCheckInit b k).1) := by
  have hst := barrierCheckInit_status b k
  unfold pthreadBarrierWait barrierNotify
  generalize barrierCheckInit b k = p at hst
  obtain ⟨b1, k1⟩ := p
  dsimp only at hst ⊢
  by_cases hinit : b1.initCount = 0
  · rw [if_pos hinit]
    exact .of_status hst
  rw [if_neg hinit, if_neg hinit]
  by_cases hleft : b1.arrive.left = 0
  · rw [if_pos hleft, if_pos hleft]
    have h1 : Wakes k (k1.kleeAddHbnode t ctx).2
        [⟨b1.wlist, ((b1.initCount : Int) - 1).bmod (2 ^ 32)⟩] := .of_status hst
    refine (h1.trans (wakes_notifyAll (mem_singleton.2 rfl))).trans (.of_status ?_)
    rw [barrierCheckInit_status]
    exact (addNodesFrom_frame ..).1.trans (addNodesTo_frame ..).1
  · rw [if_neg hleft, if_neg hleft]
    exact wakes_update hon (congrArg (update · t _) hst)

lemma rwlockCheckInit_status (rw : Rwlock) (k : KState SyncRest) :
    (rwlockCheckInit rw k).2.status = k.status := by
  unfold rwlockCheckInit
  split <;> rfl

lemma rdlockTail_status (rw : Rwlock) (k : KState SyncRest) (t : Nat) (ctx : CallCtx) :
    (rdlockTail rw k t ctx).2.2.status = k.status := by
  unfold rdlockTail
  split <;> rfl

lemma wrlockTail_status (rw : Rwlock) (k : KState SyncRest) (t : Nat) (ctx : CallCtx) :
    (wrlockTail rw k t ctx).2.2.status = k.status := by
  unfold wrlockTail
  dsimp only
  split <;> rfl

lemma wakes_rdlock (hon : (k.status t).on = none) :
    Wakes k (atomicRwlockRdlock rw k t ctx try_ rest).2.2 ls := by
  have hst := rwlockCheckInit_status rw k
  unfold atomicRwlockRdlock
  dsimp only
  split
  · split
    · exact .of_status hst
    split
    · exact .of_status hst
    · exact wakes_update hon (congrArg (update · t _) hst)
  · exact (Wakes.of_status hst).trans (.of_status (rdlockTail_status ..))

lemma wakes_wrlock (hon : (k.status t).on = none) :
    Wakes k (atomicRwlockWrlock rw k t ctx try_ rest).2.2 ls := by
  have hst := rwlockCheckInit_status rw k
  unfold atomicRwlockWrlock
  dsimp only
  split
  · split
    · exact .of_status hst
    split
    · exact .of_status hst
    · exact wakes_update hon (congrArg (update · t _) hst)
  · exact (Wakes.of_status hst).trans (.of_status (wrlockTail_status ..))

lemma rwlockRelease_frame (rw : Rwlock) (k : KState SyncRest) (t : Nat) (ctx : CallCtx) :
    (rwlockRelease rw k t ctx).2.status = k.status ∧
      (rwlockRelease rw k t ctx).1.nrReaders = readersLeft rw ∧
      (rwlockRelease rw k t ctx).1.nrReadersQueued = rw.nrReadersQueued ∧
      (rwlockRelease rw k t ctx).1.nrWritersQueued = rw.nrWritersQueued ∧
      (rwlockRelease rw k t ctx).1.wlistReaders = rw.wlistReaders ∧
      (rwlockRelease rw k t ctx).1.wlistWriters = rw.wlistWriters := by
  unfold rwlockRelease readersLeft
  dsimp only
  split <;> exact ⟨rfl, rfl, rfl, rfl, rfl, rfl⟩

lemma wakes_rwlockUnlock (hr : atomicRwlockUnlock n rw k t ctx pick = some (r, rw', k')) :
    Wakes k k' (rwlockUnlockNotify rw) := by
  unfold atomicRwlockUnlock at hr
  unfold rwlockUnlockNotify
  split at hr
  · cases hr
    exact .of_status rfl
  rename_i hno
  rw [if_neg hno]
  rw [map_eq_some_iff] at hr
  obtain ⟨⟨rw2, k2⟩, hk, hr⟩ := hr
  cases hr
  obtain ⟨hst, hleft, hrq, hwq, hrl, hwl⟩ := rwlockRelease_frame rw k t ctx
  generalize rwlockRelease rw k t ctx = p at hk hst hleft hrq hwq hrl hwl
  obtain ⟨rw1, k1⟩ := p
  unfold rwlockNotify at hk
  rw [hleft, hrq, hwq, hrl, hwl] at hk
  split at hk
  · rename_i hq
    rw [if_pos hq]
    obtain ⟨k3, hk, hr⟩ := map_eq_some_iff.1 hk
    cases hr
    exact (Wakes.of_status hst).trans
      (wakes_notifyOne (mem_singleton.2 rfl) hk)
  rename_i hq
  rw [if_neg hq]
  split at hk
  · rename_i hq'
    rw [if_pos hq']
    cases hk
    exact (Wakes.of_status hst).trans
      (wakes_notifyAll (a := ⟨rw.wlistReaders, rw.nrReadersQueued⟩) (mem_singleton.2 rfl))
  · cases hk
    exact .of_status hst

end

lemma step_wakes (hs : step n s (t, op) = some s') :
    Wakes s.engine s'.engine (s.notifies t op) := by
  obtain ⟨⟨ht, -⟩, hr⟩ := ite_none_right_eq_some.1 hs
  have hleave : ∀ {k : KState SyncRest} {flow : Flow} {ls : List Notify}, Wakes s.engine k ls →
      Wakes s.engine (leave t k flow) ls :=
    fun h => h.trans (.of_status (leave_frame ..).1)
  split at hr
  · rename_i c hst
    have hon : (s.engine.status t).on = none := by
      rw [hst]
      rfl
    cases c with
    | mutexInit i | condInit i | rwlockInit i =>
      cases hr
      exact .of_status rfl
    | mutexLock i ctx try_ =>
      cases hr
      exact hleave (wakes_mutexLock hon)
    | mutexUnlock i ctx pick =>
      obtain ⟨⟨r, m, k⟩, hu, rfl⟩ := map_eq_some_iff.1 hr
      exact (wakes_mutexUnlock hu).trans (.of_status rfl)
    | condWait i j ctx pick =>
      obtain ⟨⟨flow, c, m, k⟩, hu, rfl⟩ := map_eq_some_iff.1 hr
      exact hleave (wakes_condWait hon hu)
    | condNotify i ctx all pick =>
      obtain ⟨⟨c, k⟩, hu, rfl⟩ := map_eq_some_iff.1 hr
      exact (wakes_condNotify hu).trans (.of_status rfl)
    | barrierInit i count =>
      simp only [call] at hr
      split at hr
      · cases hr
      split at hr
      · obtain rfl := Option.some.inj hr
        exact .of_status rfl
      · obtain rfl := Option.some.inj hr
        exact .of_status rfl
    | barrierWait i ctx =>
      simp only [call] at hr
      cases hr
      have hw : Wakes s.engine (pthreadBarrierWait n (s.barriers i) s.engine t ctx SyncRest.ctx
          (.barrierWait i ctx)).2.2 _ := wakes_barrierWait hon
      refine hw.trans (.of_status ?_)
      unfold setBarrier
      split <;> rfl
    | rdlock i ctx try_ =>
      cases hr
      exact hleave (wakes_rdlock hon)
    | wrlock i ctx try_ =>
      cases hr
      exact hleave (wakes_wrlock hon)
    | rwlockUnlock i ctx pick =>
      obtain ⟨⟨r, rw, k⟩, hu, rfl⟩ := map_eq_some_iff.1 hr
      exact hleave (wakes_rwlockUnlock hu)
  · rename_i rest hst
    obtain rfl := Option.some.inj hr
    have hon : (s.engine.status t).on = none := by
      rw [hst]
      rfl
    have hup : ∀ {ls}, Wakes s.engine (s.engine.wakeUp t) ls := fun {ls} => wakes_update hon rfl
    have hon' : ((s.engine.wakeUp t).status t).on = none := by
      rw [KState.wakeUp_status, update_self]
      rfl
    cases rest with
    | mutexLock i ctx =>
      exact hup.trans (.of_status (mutexCheckInit_status ..))
    | condWait i j ctx =>
      apply hleave
      refine hup.trans ((Wakes.of_status (condCheckInit_status (s.conds i) _)).trans ?_)
      apply wakes_mutexLock
      rw [condCheckInit_status]
      exact hon'
    | barrierWait i ctx =>
      exact hup.trans (.of_status (barrierCheckInit_status ..))
    | rdlock i ctx =>
      apply hleave
      refine hup.trans (.of_status ?_)
      exact (rdlockTail_status _ _ t ctx).trans (rwlockCheckInit_status (s.rwlocks i) _)
    | wrlock i ctx =>
      apply hleave
      refine hup.trans (.of_status ?_)
      exact (wrlockTail_status _ _ t ctx).trans (rwlockCheckInit_status (s.rwlocks i) _)
  · cases hr

/-- What is passed on is right modulo 2^32, and right while an int can hold it. -/
def Notify.Ok (n : Nat) (k : KState SyncRest) (a : Notify) : Prop :=
  a.expected % 2 ^ 32 = (k.asleep n a.wlist : Int) % 2 ^ 32 ∧
    (k.asleep n a.wlist < 2 ^ 31 → a.expected = k.asleep n a.wlist)

variable {a : Notify}

lemma Notify.Ok.congr (h : a.Ok n k) (hs : k'.status = k.status) : a.Ok n k' := by
  unfold Notify.Ok KState.asleep
  rw [hs]
  exact h

lemma ok_of_wrapping (h : (QueueCount.wrapping queued).Agrees (k.asleep n wlist)) :
    Notify.Ok n k ⟨wlist, queued⟩ := by
  change queued = k.asleep n wlist % 2 ^ 32 at h
  constructor
  · dsimp only
    omega
  · dsimp only
    omega

lemma ok_of_guarded (h : (QueueCount.guarded queued).Agrees (k.asleep n wlist)) :
    Notify.Ok n k ⟨wlist, queued⟩ := by
  obtain ⟨rfl, -⟩ := h
  exact ⟨rfl, fun _ => rfl⟩

lemma mutexNotify_ok (h : Counted n (update q x m.queue) k) (ha : a ∈ mutexNotify m t) :
    a.Ok n k := by
  unfold mutexNotify at ha
  split at ha
  · cases ha
  split at ha
  · rw [mem_singleton] at ha
    subst ha
    exact ok_of_wrapping h.agree
  · cases ha

lemma condNotify_ok (h : Counted n (update q x c.queue) k) (ha : a ∈ condNotify c) :
    a.Ok n k := by
  unfold condNotify at ha
  split at ha
  · rw [mem_singleton] at ha
    subst ha
    exact ok_of_wrapping h.agree
  · cases ha

lemma barrierNotify_ok (h : Counted n (update q x b.queue) k)
    (ha : a ∈ barrierNotify b) : a.Ok n k := by
  unfold barrierNotify at ha
  split at ha
  · cases ha
  rename_i hinit
  split at ha
  · rename_i hleft
    rw [mem_singleton] at ha
    subst ha
    have hlast : k.asleep n b.wlist + 1 = b.initCount := agrees_last hinit h.agree hleft
    have heq : (b.initCount : Int) - 1 = k.asleep n b.wlist := by omega
    unfold Notify.Ok
    dsimp only
    rw [heq]
    constructor
    · exact Int.bmod_emod
    · intro hlt
      rw [Int.bmod_eq_of_le] <;> omega
  · cases ha

lemma rwlockUnlockNotify_ok (hxy : x ≠ y) (h : Counted n (withRwlock q x y rw) k)
    (ha : a ∈ rwlockUnlockNotify rw) : a.Ok n k := by
  unfold rwlockUnlockNotify at ha
  split at ha
  · cases ha
  split at ha
  · rw [mem_singleton] at ha
    subst ha
    exact ok_of_guarded (Counted.agree h)
  split at ha
  · rw [mem_singleton] at ha
    subst ha
    exact ok_of_guarded (Counted.agree (.swap hxy h))
  · cases ha

lemma Inv.notifies_ok (h : Inv n s) (ha : a ∈ s.notifies t op) : a.Ok n s.engine := by
  unfold notifies at ha
  split at ha
  · exact (mutexNotify_ok (h.mutex _).checkMutex.1 ha).congr (mutexCheckInit_status ..).symm
  · rename_i i j _ _
    have h1 := Counted.swap (by simp) ((h.condMutex i j).swap (by simp)).checkCond.1
    refine (mutexNotify_ok h1.checkMutex.1 ha).congr ?_
    rw [mutexCheckInit_status, condCheckInit_status]
  · exact (condNotify_ok (h.cond _).checkCond.1 ha).congr (condCheckInit_status ..).symm
  · exact (barrierNotify_ok (h.barrier _).checkBarrier.1 ha).congr (barrierCheckInit_status ..).symm
  · exact rwlockUnlockNotify_ok (by simp) (h.rwlock _).counted ha
  · cases ha

/-- In every state between the calls the counters count the sleepers; threads are woken by the
notifies of `notifies` only, and each of these is told how many threads sleep on its list.  With
less than 2^31 threads all of this is exact. -/
theorem queueCounts_agree (n : Nat) (s : SyncSys) (h : Machine.Reaches (step n) initial s) :
    (∀ i, (s.mutexes i).queued = s.engine.asleep n (s.mutexes i).wlist % 2 ^ 32) ∧
    (∀ i, (s.conds i).queued = s.engine.asleep n (s.conds i).wlist % 2 ^ 32) ∧
    (∀ i, (s.barriers i).left ≤ (s.barriers i).initCount ∧
      (s.barriers i).initCount - (s.barriers i).left = s.engine.asleep n (s.barriers i).wlist) ∧
    (∀ i, (s.rwlocks i).nrReadersQueued = s.engine.asleep n (s.rwlocks i).wlistReaders ∧
      (s.rwlocks i).nrWritersQueued = s.engine.asleep n (s.rwlocks i).wlistWriters) ∧
    (∀ t op s', step n s (t, op) = some s' → Wakes s.engine s'.engine (s.notifies t op)) ∧
    (∀ t op a, a ∈ s.notifies t op →
      a.expected % 2 ^ 32 = (s.engine.asleep n a.wlist : Int) % 2 ^ 32) ∧
    (n < 2 ^ 31 → (∀ i, (s.mutexes i).queued = s.engine.asleep n (s.mutexes i).wlist) ∧
      (∀ i, (s.conds i).queued = s.engine.asleep n (s.conds i).wlist) ∧
      ∀ t op a, a ∈ s.notifies t op → a.expected = s.engine.asleep n a.wlist) := by
  obtain ⟨ls, hrun⟩ := h
  have hi : Inv n s := Machine.inv_of_run (step n) (I := Inv n)
    (fun _ _ _ hs hstep => inv_step hs hstep) (inv_initial n) hrun
  have hmutex : ∀ i, (s.mutexes i).queued = s.engine.asleep n (s.mutexes i).wlist % 2 ^ 32 :=
    fun i => (hi.mutex i).agree
  have hcond : ∀ i, (s.conds i).queued = s.engine.asleep n (s.conds i).wlist % 2 ^ 32 :=
    fun i => (hi.cond i).agree
  refine ⟨hmutex, hcond, fun i => ?_, fun i => ?_, fun t op s' hs => step_wakes hs,
    fun t op a ha => (hi.notifies_ok ha).1, fun hn => ?_⟩
  · obtain ⟨-, hle, -, heq⟩ := (hi.barrier i).agree
    exact ⟨hle, heq⟩
  · have hrw := (hi.rwlock i).counted
    exact ⟨(Counted.agree (.swap (by simp) hrw)).1, hrw.agree.1⟩
  · have hlt : ∀ w, s.engine.asleep n w < 2 ^ 31 := by
      intro w
      rw [KState.asleep_eq]
      exact lt_of_le_of_lt (asleep_le n _ w) hn
    refine ⟨fun i => ?_, fun i => ?_, fun t op a ha => (hi.notifies_ok ha).2 (hlt _)⟩
    · rw [hmutex i]
      have := hlt (s.mutexes i).wlist
      omega
    · rw [hcond i]
      have := hlt (s.conds i).wlist
      omega

/-- A waiter of the condition is moved behind a thread that waits for the mutex. -/
theorem queueCounts_agree_moved :
    ∃ s, Machine.Reaches (step 3) initial s ∧
      s.notifies 1 (some (.mutexUnlock 0 ⟨5, false⟩ (some 2))) = [⟨(s.mutexes 0).wlist, 2⟩] ∧
      s.engine.asleep 3 (s.mutexes 0).wlist = 2 :=
  have h : Machine.Reaches (step 3) initial _ :=
    ⟨[(0, some (.mutexLock 0 ⟨1, false⟩ false)), (0, some (.condWait 0 0 ⟨2, false⟩ none)),
      (1, some (.mutexLock 0 ⟨3, false⟩ false)), (2, some (.mutexLock 0 ⟨3, false⟩ false)),
      (1, some (.condNotify 0 ⟨4, false⟩ true none)), (0, none)], rfl⟩
  ⟨_, h, rfl, (((queueCounts_agree 3 _ h).2.2.2.2.2.2 (by decide)).1 0).symm⟩

end SyncSys

end InputCovSched
