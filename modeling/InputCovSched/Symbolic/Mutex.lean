import InputCovSched.Symbolic.Engine
import InputCovSched.Lib.Machine

/-!
# The symbolic mutex (`runtime/POSIX/threadsync.c`)

`pthread_mutex_lock`, `trylock` and `unlock` over the klee primitives, and the system of
`n` threads that call them on one mutex. `crit t` is the specification's own state: `t`
is between a successful lock and its next unlock call.

A waiter that was notified sets `taken` when it next runs and tests nothing; the mutex looks
free until then:

    three threads reach a state with two of them inside  (not_exclusive)
    nobody locks a free mutex while a grant is pending → Exclusive  (exclusive_of_meets)
-/

namespace InputCovSched

open Function

structure Mutex where
  wlist : Nat
  taken : Bool
  owner : Nat
  lastHbNode : Nat
  queued : Nat
  deriving DecidableEq, Repr

section
variable {κ : Type}

def Mutex.zero : Mutex := ⟨0, false, 0, 0, 0⟩

def mutexInit (k : KState κ) : Mutex × KState κ :=
  ({ Mutex.zero with wlist := k.kleeGetWlist.1 }, k.kleeGetWlist.2)

/-- The `AlreadyInit` case: a statically initialized mutex gets its waiting list. -/
def mutexCheckInit (m : Mutex) (k : KState κ) : Mutex × KState κ :=
  if m.wlist = 0 then ({ m with wlist := k.kleeGetWlist.1 }, k.kleeGetWlist.2) else (m, k)

def Mutex.mustWait (m : Mutex) : Bool := m.taken || decide (0 < m.queued)

/-- The tail of `atomic_mutex_lock`, reached directly or after the sleep. -/
def Mutex.take (m : Mutex) (self hbnode : Nat) : Mutex :=
  { m with taken := true, owner := self, lastHbNode := hbnode }

def atomicMutexLock (m : Mutex) (k : KState κ) (self : Nat) (ctx : CallCtx) (try_ : Bool)
    (rest : κ) : Flow × Mutex × KState κ :=
  let (m, k) := mutexCheckInit m k
  let (hbnode, k) := k.threadMakeHbnodeFrom self ctx m.lastHbNode
  if m.mustWait then
    if try_ then (.ret .ebusy, m, k)
    else
      -- the notifier will decrement
      (.sleeps, { m with queued := (m.queued + 1) % 2 ^ 32 }, k.kleeThreadSleep self m.wlist rest)
  else (.ret .ok, m.take self hbnode, k)

/-- `atomic_mutex_lock` from the return of `__thread_sleep` on. -/
def atomicMutexLockRest (m : Mutex) (k : KState κ) (self : Nat) : Mutex × KState κ :=
  let (m, k) := mutexCheckInit m (k.wakeUp self)
  (m.take self (k.kleeLastHbnode self), k)

def atomicMutexUnlock (n : Nat) (m : Mutex) (k : KState κ) (self : Nat) (ctx : CallCtx)
    (pick : Option Nat) : Option (Ret × Mutex × KState κ) :=
  let (m, k) := mutexCheckInit m k
  if m.taken = false ∨ m.owner ≠ self then some (.eperm, m, k)
  else
    let (hbnode, k) := k.kleeAddHbnode self ctx
    let m := { m with taken := false, lastHbNode := hbnode }
    if 0 < m.queued then
      match k.kleeThreadNotifyOne n m.wlist pick with
      | none => none
      | some k => some (.ok, { m with queued := m.queued - 1 }, k)
    else some (.ok, m, k)

end

section
variable {κ : Type} (m : Mutex) (k : KState κ)

@[simp] lemma mutexCheckInit_taken : (mutexCheckInit m k).1.taken = m.taken := by
  unfold mutexCheckInit
  split <;> rfl

@[simp] lemma mutexCheckInit_owner : (mutexCheckInit m k).1.owner = m.owner := by
  unfold mutexCheckInit
  split <;> rfl

@[simp] lemma mutexCheckInit_queued : (mutexCheckInit m k).1.queued = m.queued := by
  unfold mutexCheckInit
  split <;> rfl

@[simp] lemma mutexCheckInit_mustWait : (mutexCheckInit m k).1.mustWait = m.mustWait := by
  simp [Mutex.mustWait]

@[simp] lemma mutexCheckInit_mutexLast : (mutexCheckInit m k).1.lastHbNode = m.lastHbNode := by
  unfold mutexCheckInit
  split <;> rfl

@[simp] lemma mutexCheckInit_hbGraph : (mutexCheckInit m k).2.hbGraph = k.hbGraph := by
  unfold mutexCheckInit
  split <;> rfl

@[simp] lemma mutexCheckInit_lastHbNode : (mutexCheckInit m k).2.lastHbNode = k.lastHbNode := by
  unfold mutexCheckInit
  split <;> rfl

@[simp] lemma mutexCheckInit_status : (mutexCheckInit m k).2.status = k.status := by
  unfold mutexCheckInit
  split <;> rfl

end

/-! ## The system of threads -/

inductive MutexOp where
  | lock (ctx : CallCtx)
  | trylock (ctx : CallCtx)
  | unlock (ctx : CallCtx) (pick : Option Nat)
  | resume
  deriving DecidableEq, Repr

structure MutexSys where
  mutex : Mutex
  engine : KState Unit
  crit : Nat → Bool

namespace MutexSys

/-- A mutex that is statically initialized, or initialized by `pthread_mutex_init`. -/
def initial (static : Bool) : MutexSys :=
  if static then ⟨.zero, .boot, fun _ => false⟩
  else
    let (m, k) := mutexInit .boot
    ⟨m, k, fun _ => false⟩

/-- `pthread_mutex_lock` and `pthread_mutex_trylock`: preempt after a success only. -/
def lock (s : MutexSys) (t : Nat) (ctx : CallCtx) (try_ : Bool) : MutexSys :=
  let (flow, m, k) := atomicMutexLock s.mutex s.engine t ctx try_ ()
  match flow with
  | .sleeps => { s with mutex := m, engine := k }
  | .ret .ok =>
    { mutex := m, engine := k.kleeThreadPreempt, crit := update s.crit t true }
  | .ret _ => { s with mutex := m, engine := k.keepTurn t }

/-- `pthread_mutex_unlock`: preempt whatever the result is. -/
def unlock (n : Nat) (s : MutexSys) (t : Nat) (ctx : CallCtx) (pick : Option Nat) :
    Option MutexSys :=
  (atomicMutexUnlock n s.mutex s.engine t ctx pick).map fun (_, m, k) =>
    { mutex := m, engine := k.kleeThreadPreempt, crit := update s.crit t false }

/-- A notified waiter runs the rest of `pthread_mutex_lock`. -/
def resume (s : MutexSys) (t : Nat) : MutexSys :=
  let (m, k) := atomicMutexLockRest s.mutex s.engine t
  { mutex := m, engine := k.kleeThreadPreempt, crit := update s.crit t true }

/-- One thread runs from a switch point to the next. -/
def step (n : Nat) (s : MutexSys) : Nat × MutexOp → Option MutexSys
  | (t, op) =>
    if t < n ∧ s.engine.canRun t then
      match op, s.engine.status t with
      | .lock ctx, .enabled => some (s.lock t ctx false)
      | .trylock ctx, .enabled => some (s.lock t ctx true)
      | .unlock ctx pick, .enabled => unlock n s t ctx pick
      | .resume, .notified () => some (s.resume t)
      | _, _ => none
    else none

/-- At most one thread is between a successful lock and its unlock. -/
def Exclusive (s : MutexSys) : Prop := ∀ t u, s.crit t = true → s.crit u = true → t = u

def GrantPending (n : Nat) (s : MutexSys) : Prop :=
  ∃ w, w < n ∧ (s.engine.status w).isNotified = true

/-- A call that finds the mutex free is made only while no grant is pending. -/
def NoBarging (n : Nat) (s : MutexSys) : Nat × MutexOp → Prop
  | (_, .lock _) | (_, .trylock _) => s.mutex.mustWait = true ∨ ¬ GrantPending n s
  | _ => True

instance (n : Nat) (s : MutexSys) : Decidable (GrantPending n s) :=
  inferInstanceAs (Decidable (∃ w, w < n ∧ (s.engine.status w).isNotified = true))

instance (n : Nat) (s : MutexSys) : ∀ l, Decidable (NoBarging n s l)
  | (_, .lock _) => inferInstanceAs (Decidable (_ ∨ ¬ GrantPending n s))
  | (_, .trylock _) => inferInstanceAs (Decidable (_ ∨ ¬ GrantPending n s))
  | (_, .unlock _ _) => isTrue trivial
  | (_, .resume) => isTrue trivial

/-! ## What a step can do -/

variable {n t : Nat} {s s' : MutexSys}

lemma lock_free (t : Nat) (ctx : CallCtx) (try_ : Bool) (h : s.mutex.mustWait = false) :
    (s.lock t ctx try_).mutex.taken = true ∧ (s.lock t ctx try_).mutex.owner = t ∧
    (s.lock t ctx try_).engine.status = s.engine.status ∧
    (s.lock t ctx try_).engine.turn = none ∧
    (s.lock t ctx try_).crit = update s.crit t true := by
  simp [lock, atomicMutexLock, h, Mutex.take]

lemma lock_busy (t : Nat) (ctx : CallCtx) (try_ : Bool) (h : s.mutex.mustWait = true) :
    (s.lock t ctx try_).mutex.taken = s.mutex.taken ∧
    (s.lock t ctx try_).mutex.owner = s.mutex.owner ∧
    (∀ u, ((s.lock t ctx try_).engine.status u).isNotified = true →
      (s.engine.status u).isNotified = true) ∧
    (s.lock t ctx try_).crit = s.crit := by
  cases try_ with
  | true => simp [lock, atomicMutexLock, h]
  | false =>
    simp only [lock, atomicMutexLock, mutexCheckInit_mustWait, h, if_true, Bool.false_eq_true,
      if_false, mutexCheckInit_taken, mutexCheckInit_owner, true_and, and_true]
    intro u hu
    by_cases hut : u = t
    · subst hut
      simp [Status.isNotified] at hu
    · simpa [update_of_ne hut] using hu

lemma resume_eq :
    (s.resume t).mutex.taken = true ∧ (s.resume t).mutex.owner = t ∧
    (s.resume t).engine.status = update s.engine.status t .enabled ∧
    (s.resume t).crit = update s.crit t true := by
  simp [resume, atomicMutexLockRest, Mutex.take]

lemma unlock_cases {ctx : CallCtx} (h : unlock n s t ctx pick = some s') :
    s'.crit = update s.crit t false ∧
    ((s.mutex.taken = true → s.mutex.owner ≠ t) ∧ s'.mutex.taken = s.mutex.taken ∧
        s'.mutex.owner = s.mutex.owner ∧ s'.engine.status = s.engine.status ∨
      s.mutex.taken = true ∧ s.mutex.owner = t ∧ s'.mutex.taken = false ∧
        (s'.engine.status = s.engine.status ∨
          ∃ w, w < n ∧ s'.engine.status = update s.engine.status w (.notified ()))) := by
  unfold unlock atomicMutexUnlock at h
  simp only [mutexCheckInit_taken, mutexCheckInit_owner, mutexCheckInit_queued] at h
  split at h
  · rename_i hrace
    cases h
    refine ⟨rfl, .inl ⟨fun ht => ?_, by simp⟩⟩
    simpa [ht] using hrace
  rename_i hown
  have htaken : s.mutex.taken = true ∧ s.mutex.owner = t := by simpa using hown
  split at h
  · split at h
    · cases h
    rename_i k hk
    cases h
    refine ⟨rfl, .inr ⟨htaken.1, htaken.2, rfl, ?_⟩⟩
    rcases KState.kleeThreadNotifyOne_cases hk with ⟨-, rfl, -⟩ | ⟨w, rest, -, hw, -, rfl⟩
    · exact .inl (by simp)
    · exact .inr ⟨w, hw, by simp⟩
  · cases h
    exact ⟨rfl, .inr ⟨htaken.1, htaken.2, rfl, .inl (by simp)⟩⟩

lemma step_cases (h : step n s (t, op) = some s') :
    t < n ∧
    ((∃ ctx try_, (op = .lock ctx ∨ op = .trylock ctx) ∧ s.engine.status t = .enabled ∧
        s' = s.lock t ctx try_) ∨
      (∃ ctx pick, op = .unlock ctx pick ∧ unlock n s t ctx pick = some s') ∨
      (op = .resume ∧ s.engine.status t = .notified () ∧ s' = s.resume t)) := by
  unfold step at h
  dsimp only at h
  split at h
  · rename_i hrun
    refine ⟨hrun.1, ?_⟩
    split at h
    · rename_i ctx hst
      exact .inl ⟨ctx, false, .inl rfl, hst, (Option.some.inj h).symm⟩
    · rename_i ctx hst
      exact .inl ⟨ctx, true, .inr rfl, hst, (Option.some.inj h).symm⟩
    · rename_i ctx pick hst
      exact .inr (.inl ⟨ctx, pick, rfl, h⟩)
    · rename_i hst
      exact .inr (.inr ⟨rfl, hst, (Option.some.inj h).symm⟩)
    · cases h
  · cases h

/-! ## Exclusion -/

/-- `taken` and `owner` name the thread inside; a pending grant finds the mutex free and
is the only one. -/
structure Inv (n : Nat) (s : MutexSys) : Prop where
  owner_in : s.mutex.taken = true → s.crit s.mutex.owner = true
  in_owner : ∀ t, s.crit t = true → s.mutex.taken = true ∧ s.mutex.owner = t
  grant_free : ∀ t, (s.engine.status t).isNotified = true → t < n ∧ s.mutex.taken = false
  grant_unique : ∀ t u, (s.engine.status t).isNotified = true →
    (s.engine.status u).isNotified = true → t = u

lemma inv_initial (static : Bool) : Inv n (initial static) := by
  cases static <;> exact ⟨by simp [initial, Mutex.zero, mutexInit], by simp [initial],
      by simp [initial, KState.boot, mutexInit, Status.isNotified],
      by simp [initial, KState.boot, mutexInit, Status.isNotified]⟩

lemma Inv.exclusive (hi : Inv n s) : s.Exclusive := by
  intro t u ht hu
  rw [← (hi.in_owner t ht).2, ← (hi.in_owner u hu).2]

lemma Inv.of_taken (hcrit : ∀ u, s.crit u = false) (htaken : s'.mutex.taken = true)
    (howner : s'.mutex.owner = t) (hcrit' : s'.crit = update s.crit t true)
    (hno : ∀ u, (s'.engine.status u).isNotified = false) : Inv n s' where
  owner_in := by simp [howner, hcrit']
  in_owner := by
    intro u hu
    refine ⟨htaken, ?_⟩
    by_contra hne
    rw [howner] at hne
    simp [hcrit', update_of_ne (Ne.symm hne), hcrit] at hu
  grant_free := by simp [hno]
  grant_unique := by simp [hno]

lemma Inv.nobody_in (hi : Inv n s) (h : s.mutex.taken = false) (u : Nat) : s.crit u = false := by
  by_contra hu
  have := (hi.in_owner u (by simpa using hu)).1
  simp [h] at this

lemma inv_step (hi : Inv n s) (hg : NoBarging n s (t, op)) (h : step n s (t, op) = some s') :
    Inv n s' := by
  obtain ⟨ht, ⟨ctx, try_, hop, hst, rfl⟩ | ⟨ctx, pick, rfl, hun⟩ | ⟨rfl, hst, rfl⟩⟩ := step_cases h
  · -- lock or trylock
    have hg' : s.mutex.mustWait = true ∨ ¬ GrantPending n s := by
      rcases hop with rfl | rfl <;> exact hg
    cases hw : s.mutex.mustWait with
    | true =>
      obtain ⟨h1, h2, h3, h4⟩ := lock_busy t ctx try_ hw
      exact ⟨by rw [h1, h2, h4]; exact hi.owner_in, by rw [h1, h2, h4]; exact hi.in_owner,
        fun u hu => by rw [h1]; exact hi.grant_free u (h3 u hu),
        fun u v hu hv => hi.grant_unique u v (h3 u hu) (h3 v hv)⟩
    | false =>
      obtain ⟨h1, h2, h3, -, h4⟩ := lock_free t ctx try_ hw
      have hfree : s.mutex.taken = false := by
        simp only [Mutex.mustWait, Bool.or_eq_false_iff] at hw
        exact hw.1
      refine Inv.of_taken (hi.nobody_in hfree) h1 h2 h4 fun u => ?_
      rw [h3]
      by_contra hu
      have hu' : (s.engine.status u).isNotified = true := by simpa using hu
      rcases hg' with hg' | hg'
      · simp [hw] at hg'
      · exact hg' ⟨u, (hi.grant_free u hu').1, hu'⟩
  · -- unlock
    obtain ⟨hcrit, ⟨hnot, h1, h2, h3⟩ | ⟨htk, hown, h1, h3⟩⟩ := unlock_cases hun
    · have hout : s.crit t = false := by
        by_contra hin
        obtain ⟨htk, hown⟩ := hi.in_owner t (by simpa using hin)
        exact hnot htk hown
      have hsame : s'.crit = s.crit := by rw [hcrit, ← hout, update_eq_self]
      exact ⟨by rw [h1, h2, hsame]; exact hi.owner_in, by rw [h1, h2, hsame]; exact hi.in_owner,
        by rw [h1, h3]; exact hi.grant_free, by rw [h3]; exact hi.grant_unique⟩
    have hno : ∀ u, (s.engine.status u).isNotified = false := by
      intro u
      by_contra hu
      have := (hi.grant_free u (by simpa using hu)).2
      simp [htk] at this
    have hnobody : ∀ u, s'.crit u = false := by
      intro u
      rw [hcrit]
      by_cases hut : u = t
      · rw [hut, update_self]
      rw [update_of_ne hut]
      by_contra hu
      exact hut (((hi.in_owner u (by simpa using hu)).2).symm.trans hown)
    have hgrant : ∃ w, ∀ u, (s'.engine.status u).isNotified = true → u = w ∧ u < n := by
      rcases h3 with h3 | ⟨w, hw, h3⟩
      · exact ⟨0, by simp [h3, hno]⟩
      refine ⟨w, fun u hu => ?_⟩
      by_cases huw : u = w
      · exact ⟨huw, huw ▸ hw⟩
      · simp [h3, update_of_ne huw, hno] at hu
    obtain ⟨w, hw⟩ := hgrant
    exact ⟨by simp [h1], by simp [hnobody], fun u hu => ⟨(hw u hu).2, h1⟩,
      fun u v hu hv => (hw u hu).1.trans (hw v hv).1.symm⟩
  · -- resume
    obtain ⟨h1, h2, h3, h4⟩ := resume_eq
    have hnt : (s.engine.status t).isNotified = true := by rw [hst]; rfl
    refine Inv.of_taken (hi.nobody_in (hi.grant_free t hnt).2) h1 h2 h4 fun u => ?_
    rw [h3]
    by_cases hut : u = t
    · subst hut
      simp [Status.isNotified]
    rw [update_of_ne hut]
    by_contra hu
    exact hut (hi.grant_unique u t (by simpa using hu) hnt)

lemma barging_breaks (h : step n s (t, op) = some s') (hg : ¬ NoBarging n s (t, op)) :
    ∃ w s'', step n s' (w, .resume) = some s'' ∧ ¬ s''.Exclusive := by
  obtain ⟨ht, ⟨ctx, try_, hop, hst, rfl⟩ | ⟨ctx, pick, rfl, -⟩ | ⟨rfl, -, -⟩⟩ := step_cases h
  · have hg' : ¬ (s.mutex.mustWait = true ∨ ¬ GrantPending n s) := by
      rcases hop with rfl | rfl <;> exact hg
    obtain ⟨hfree, w, hw, hnot⟩ : s.mutex.mustWait = false ∧ GrantPending n s := by
      simpa [not_or] using hg'
    obtain ⟨-, -, h3, h4, h5⟩ := lock_free t ctx try_ hfree
    have hwt : w ≠ t := by
      rintro rfl
      simp [hst, Status.isNotified] at hnot
    have hwst : s.engine.status w = .notified () := by
      cases hws : s.engine.status w with
      | notified r => rfl
      | enabled | asleep wl r => simp [hws, Status.isNotified] at hnot
    refine ⟨w, (s.lock t ctx try_).resume w, ?_, fun hex => ?_⟩
    · simp [step, hw, KState.canRun_of_turn_none h4, h3, hwst]
    · obtain ⟨-, -, -, hcr⟩ := resume_eq
      refine hwt (hex w t ?_ ?_)
      · rw [hcr, update_self]
      · rw [hcr, update_of_ne (Ne.symm hwt), h5, update_self]
  · exact absurd trivial hg
  · exact absurd trivial hg

/-- Runs in which nobody takes the mutex past a pending grant keep exclusion in every
state; and one step that does so can be followed by a step that breaks it. -/
theorem exclusive_of_meets (n : Nat) (static : Bool) :
    (∀ s, Machine.ReachesBy (step n) (NoBarging n) (initial static) s → s.Exclusive) ∧
    (∀ s l s', Machine.ReachesBy (step n) (NoBarging n) (initial static) s →
      step n s l = some s' → ¬ NoBarging n s l →
        ∃ w s'', step n s' (w, .resume) = some s'' ∧ ¬ s''.Exclusive) := by
  refine ⟨?_, fun s l s' _ h hg => barging_breaks h hg⟩
  rintro s ⟨ls, hrun, hmeets⟩
  have hinv : Inv n s :=
    Machine.inv_of_meets (step n) (fun _ _ _ hi hg h => inv_step hi hg h) (inv_initial static)
      hmeets hrun
  exact hinv.exclusive

/-- Thread 1 queues behind thread 0, is handed the mutex, and runs. -/
theorem exclusive_of_meets_handoff :
    ∃ s, Machine.ReachesBy (step 2) (NoBarging 2) (initial true) s ∧
      s.crit 1 = true ∧ s.Exclusive := by
  have hreach : ∃ s, Machine.ReachesBy (step 2) (NoBarging 2) (initial true) s ∧ s.crit 1 = true :=
    ⟨_, ⟨[(0, .lock ⟨1, false⟩), (1, .lock ⟨2, false⟩), (0, .unlock ⟨3, false⟩ (some 1)),
      (1, .resume)], rfl, by decide⟩, rfl⟩
  obtain ⟨s, hr, hin⟩ := hreach
  exact ⟨s, hr, hin, (exclusive_of_meets 2 true).1 s hr⟩

/-- Thread 2 locks between the notify of thread 1 and its wake-up. -/
theorem not_exclusive :
    ∃ s, Machine.Reaches (step 3) (initial true) s ∧ s.crit 1 = true ∧ s.crit 2 = true ∧
      ¬ s.Exclusive := by
  refine ⟨_, ⟨[(0, .lock ⟨1, false⟩), (1, .lock ⟨2, false⟩), (0, .unlock ⟨3, false⟩ (some 1)),
    (2, .lock ⟨4, false⟩), (1, .resume)], rfl⟩, rfl, rfl, fun hex => ?_⟩
  have := hex 1 2 rfl rfl
  omega

end MutexSys

end InputCovSched
