import InputCovSched.Symbolic.Engine
import InputCovSched.Lib.Machine

/-!
# The symbolic semaphore (`runtime/POSIX/threadsync.c`)

`sem_wait`, `sem_trywait` and `sem_post` over the klee primitives, and the system of `n`
threads that call them on one semaphore. The specification's own state is the number of
completed waits, the number of posts, and `wrapped`: some decrement found the count at 0.

    a wait overtakes the notified waiter, whose decrement wraps  (not_safe)
    count > number of notified waiters at every immediate decrement → Safe  (safe_of_meets)
-/

namespace InputCovSched

open Tally

def semValueMax : Nat := 32000

structure Sem where
  wlist : Nat
  lastHbNode : Nat
  count : Nat
  deriving DecidableEq, Repr

section
variable {κ : Type}

/-- `none` is the `EINVAL` return. -/
def semInit (k : KState κ) (value : Nat) : Option (Sem × KState κ) :=
  if semValueMax < value then none
  else some (⟨k.kleeGetWlist.1, 0, value⟩, k.kleeGetWlist.2)

/-- `sem->count--` and the store of the node, at the end of `atomic_sem_down`. -/
def Sem.take (m : Sem) (hbnode : Nat) : Sem :=
  { m with count := (m.count + (2 ^ 32 - 1)) % 2 ^ 32, lastHbNode := hbnode }

/-- `-1` with `errno` `EAGAIN` is the return code `eagain`. -/
def atomicSemDown (m : Sem) (k : KState κ) (self : Nat) (ctx : CallCtx) (try_ : Bool) (rest : κ) :
    Flow × Sem × KState κ :=
  let (hbnode, k) := k.threadMakeHbnodeFrom self ctx m.lastHbNode
  if m.count = 0 then
    if try_ then (.ret .eagain, m, k)
    else (.sleeps, m, k.kleeThreadSleep self m.wlist rest)
  else (.ret .ok, m.take hbnode, k)

/-- `atomic_sem_down` from the return of `__thread_sleep` on. -/
def atomicSemDownRest (m : Sem) (k : KState κ) (self : Nat) : Sem × KState κ :=
  let k := k.wakeUp self
  (m.take (k.kleeLastHbnode self), k)

def atomicSemUp (n : Nat) (m : Sem) (k : KState κ) (self : Nat) (ctx : CallCtx)
    (pick : Option Nat) : Option (Sem × KState κ) :=
  let (hbnode, k) := k.threadMakeHbnodeFrom self ctx m.lastHbNode
  let m := { m with count := (m.count + 1) % 2 ^ 32, lastHbNode := hbnode }
  (k.kleeThreadNotifyOne n m.wlist pick).map fun k => (m, k)

end

/-! ## The system of threads -/

inductive SemOp where
  | wait (ctx : CallCtx)
  | trywait (ctx : CallCtx)
  | post (ctx : CallCtx) (pick : Option Nat)
  | resume
  deriving DecidableEq, Repr

structure SemSys where
  sem : Sem
  engine : KState Unit
  completed : Nat
  posts : Nat
  wrapped : Bool

namespace SemSys

def initial (value : Nat) : Option SemSys :=
  (semInit .boot value).map fun (m, k) => ⟨m, k, 0, 0, false⟩

def complete (s : SemSys) (m : Sem) (k : KState Unit) : SemSys :=
  { s with
    sem := m
    engine := k.kleeThreadPreempt
    completed := s.completed + 1
    wrapped := s.wrapped || s.sem.count == 0 }

/-- `sem_wait` and `sem_trywait`: preempt after a success only. -/
def down (s : SemSys) (t : Nat) (ctx : CallCtx) (try_ : Bool) : SemSys :=
  let (flow, m, k) := atomicSemDown s.sem s.engine t ctx try_ ()
  match flow with
  | .sleeps => { s with sem := m, engine := k }
  | .ret .ok => s.complete m k
  | .ret _ => { s with sem := m, engine := k.keepTurn t }

def post (n : Nat) (s : SemSys) (t : Nat) (ctx : CallCtx) (pick : Option Nat) : Option SemSys :=
  (atomicSemUp n s.sem s.engine t ctx pick).map fun (m, k) =>
    { s with sem := m, engine := k.kleeThreadPreempt, posts := s.posts + 1 }

def resume (s : SemSys) (t : Nat) : SemSys :=
  let (m, k) := atomicSemDownRest s.sem s.engine t
  s.complete m k

/-- One thread runs from a switch point to the next. -/
def step (n : Nat) (s : SemSys) : Nat × SemOp → Option SemSys
  | (t, op) =>
    if t < n ∧ s.engine.canRun t then
      match op, s.engine.status t with
      | .wait ctx, .enabled => some (s.down t ctx false)
      | .trywait ctx, .enabled => some (s.down t ctx true)
      | .post ctx pick, .enabled => post n s t ctx pick
      | .resume, .notified () => some (s.resume t)
      | _, _ => none
    else none

/-- No more completed waits than the initial count and the posts allow, no wrap. -/
def Safe (value : Nat) (s : SemSys) : Prop :=
  s.completed ≤ value + s.posts ∧ s.wrapped = false

def pending (n : Nat) (s : SemSys) : Nat := countIf n Status.isNotified s.engine.status

def NobodyAsleep (n : Nat) (s : SemSys) : Prop :=
  ∀ w, w < n → (s.engine.status w).waitsOn s.sem.wlist = false

def Reserved (n : Nat) (s : SemSys) : Nat × SemOp → Prop
  | (_, .wait _) | (_, .trywait _) => s.sem.count = 0 ∨ pending n s < s.sem.count
  | (_, .post _ _) => s.sem.count + 1 < 2 ^ 32 ∨ (pending n s = 0 ∧ NobodyAsleep n s)
  | (_, .resume) => True

instance (n : Nat) (s : SemSys) : Decidable (NobodyAsleep n s) :=
  inferInstanceAs (Decidable (∀ w, w < n → (s.engine.status w).waitsOn s.sem.wlist = false))

instance (n : Nat) (s : SemSys) : ∀ l, Decidable (Reserved n s l)
  | (_, .wait _) => inferInstanceAs (Decidable (_ ∨ _))
  | (_, .trywait _) => inferInstanceAs (Decidable (_ ∨ _))
  | (_, .post _ _) => inferInstanceAs (Decidable (_ ∨ (_ ∧ _)))
  | (_, .resume) => isTrue trivial

/-! ## What a step can do -/

variable {n t : Nat} {s s' : SemSys}

attribute [local simp] atomicSemDown

lemma down_zero (t : Nat) (ctx : CallCtx) (try_ : Bool) (h : s.sem.count = 0)
    (hst : s.engine.status t = .enabled) :
    (s.down t ctx try_).sem = s.sem ∧ pending n (s.down t ctx try_) = pending n s ∧
    (s.down t ctx try_).completed = s.completed ∧ (s.down t ctx try_).posts = s.posts ∧
    (s.down t ctx try_).wrapped = s.wrapped := by
  cases try_ with
  | true => simp [down, h, pending]
  | false =>
    refine ⟨by simp [down, h], ?_, by simp [down, h]⟩
    apply countIf_congr
    intro u _
    by_cases hut : u = t
    · subst hut
      simp [down, h, hst, Status.isNotified]
    · simp [down, h, Function.update_of_ne hut]

lemma down_pos (t : Nat) (ctx : CallCtx) (try_ : Bool) (h : 0 < s.sem.count)
    (hmax : s.sem.count < 2 ^ 32) :
    (s.down t ctx try_).sem.count + 1 = s.sem.count ∧
    (s.down t ctx try_).engine.status = s.engine.status ∧
    (s.down t ctx try_).engine.turn = none ∧
    (s.down t ctx try_).completed = s.completed + 1 ∧ (s.down t ctx try_).posts = s.posts ∧
    (s.down t ctx try_).wrapped = s.wrapped := by
  have hne : s.sem.count ≠ 0 := by omega
  refine ⟨?_, by simp [down, hne, complete]⟩
  simp only [down, atomicSemDown, hne, if_false, complete, Sem.take]
  omega

lemma resume_eq (ht : t < n) (hst : s.engine.status t = .notified ()) :
    (s.resume t).sem.count = (s.sem.count + (2 ^ 32 - 1)) % 2 ^ 32 ∧
    pending n (s.resume t) + 1 = pending n s ∧ (s.resume t).engine.turn = none ∧
    (s.resume t).completed = s.completed + 1 ∧ (s.resume t).posts = s.posts ∧
    (s.resume t).wrapped = (s.wrapped || s.sem.count == 0) := by
  refine ⟨by simp [resume, atomicSemDownRest, complete, Sem.take], ?_, by simp [resume, complete],
    by simp [resume, complete], by simp [resume, complete], by simp [resume, complete]⟩
  have hcount := countIf_update (p := Status.isNotified) (f := s.engine.status) ht .enabled
  simpa [resume, atomicSemDownRest, complete, pending, hst, Status.isNotified] using hcount

lemma post_cases {ctx : CallCtx} (h : post n s t ctx pick = some s') :
    s'.sem.count = (s.sem.count + 1) % 2 ^ 32 ∧ s'.engine.turn = none ∧
    (NobodyAsleep n s ∧ pending n s' = pending n s ∨
      ¬ NobodyAsleep n s ∧ pending n s' = pending n s + 1) ∧
    s'.completed = s.completed ∧ s'.posts = s.posts + 1 ∧ s'.wrapped = s.wrapped := by
  simp only [post, atomicSemUp, Option.map_map, Option.map_eq_some_iff] at h
  obtain ⟨k, hk, rfl⟩ := h
  refine ⟨rfl, rfl, ?_, rfl, rfl, rfl⟩
  rcases KState.kleeThreadNotifyOne_cases hk with ⟨-, rfl, hno⟩ | ⟨w, rest, -, hw, hst, rfl⟩
  · exact .inl ⟨hno, by simp [pending]⟩
  have hcount := countIf_update (p := Status.isNotified) (f := s.engine.status) hw (.notified rest)
  simp only [KState.threadMakeHbnodeFrom_status] at hst
  refine .inr ⟨fun hno => ?_, by simpa [pending, hst, Status.isNotified] using hcount⟩
  have := hno w hw
  simp [hst, Status.waitsOn] at this

lemma step_cases (h : step n s (t, op) = some s') :
    t < n ∧
    ((∃ ctx try_, (op = .wait ctx ∨ op = .trywait ctx) ∧ s.engine.status t = .enabled ∧
        s' = s.down t ctx try_) ∨
      (∃ ctx pick, op = .post ctx pick ∧ post n s t ctx pick = some s') ∨
      (op = .resume ∧ s.engine.status t = .notified () ∧ s' = s.resume t)) := by
  unfold step at h
  dsimp only at h
  split at h
  · rename_i hrun
    refine ⟨hrun.1, ?_⟩
    split at h
    · rename_i ctx hst
      exact .inl ⟨ctx, false, .inl rfl, hst, (Option.some.inj h).symm⟩
    · rename_i ctx hst
      exact .inl ⟨ctx, true, .inr rfl, hst, (Option.some.inj h).symm⟩
    · rename_i ctx pick hst
      exact .inr (.inl ⟨ctx, pick, rfl, h⟩)
    · rename_i hst
      exact .inr (.inr ⟨rfl, hst, (Option.some.inj h).symm⟩)
    · cases h
  · cases h

/-! ## Safety -/

/-- The count covers the notified waiters, and the books balance. -/
structure Inv (n value : Nat) (s : SemSys) : Prop where
  lt : s.sem.count < 2 ^ 32
  covers : pending n s ≤ s.sem.count
  balance : s.completed + s.sem.count ≤ value + s.posts
  noWrap : s.wrapped = false

lemma Inv.safe (hi : Inv n value s) : s.Safe value := by
  have := hi.balance
  exact ⟨by omega, hi.noWrap⟩

lemma inv_initial (h : initial value = some s) : Inv n value s := by
  unfold initial semInit at h
  split at h
  · cases h
  rename_i hv
  cases h
  have hv' : value ≤ 32000 := by simpa [semValueMax] using hv
  have hnone : countIf n Status.isNotified (KState.boot (κ := Unit)).status = 0 :=
    countIf_eq_zero.2 fun i _ => rfl
  exact ⟨by dsimp only; omega, by simp [pending, hnone], by simp, rfl⟩

lemma inv_step (hi : Inv n value s) (hg : Reserved n s (t, op)) (h : step n s (t, op) = some s') :
    Inv n value s' := by
  obtain ⟨hlt, hcov, hbal, hwrap⟩ := hi
  obtain ⟨ht, ⟨ctx, try_, hop, hst, rfl⟩ | ⟨ctx, pick, rfl, hpost⟩ | ⟨rfl, hst, rfl⟩⟩ :=
    step_cases h
  · -- wait or trywait
    have hg' : s.sem.count = 0 ∨ pending n s < s.sem.count := by
      rcases hop with rfl | rfl <;> exact hg
    rcases hg' with hzero | hpos
    · obtain ⟨h1, h2, h3, h4, h5⟩ := down_zero t ctx try_ hzero hst
      exact ⟨by rw [h1]; exact hlt, by rw [h1, h2]; exact hcov, by rw [h1, h3, h4]; exact hbal,
        by rw [h5, hwrap]⟩
    obtain ⟨h1, h2, -, h3, h4, h5⟩ := down_pos t ctx try_ (by omega) hlt
    have hpend : pending n (s.down t ctx try_) = pending n s := by unfold pending; rw [h2]
    exact ⟨by omega, by omega, by omega, by rw [h5, hwrap]⟩
  · -- post
    obtain ⟨h1, -, h2, h3, h4, h5⟩ := post_cases hpost
    refine ⟨by omega, ?_, by omega, by rw [h5, hwrap]⟩
    rcases hg with hroom | ⟨hp, hno⟩
    · omega
    rcases h2 with h2 | h2
    · omega
    · exact absurd hno h2.1
  · -- a notified waiter
    obtain ⟨h1, h2, -, h3, h4, h5⟩ := resume_eq ht hst
    have hpos : 0 < s.sem.count := by omega
    refine ⟨by omega, by omega, by omega, ?_⟩
    rw [h5, hwrap]
    simpa using (by omega : s.sem.count ≠ 0)

/-! ## What happens without the reserve -/

lemma exists_pending (h : 0 < pending n s) : ∃ w, w < n ∧ s.engine.status w = .notified () := by
  obtain ⟨w, hw, hn⟩ := countIf_pos.1 h
  refine ⟨w, hw, ?_⟩
  cases hst : s.engine.status w with
  | notified r => rfl
  | enabled | asleep wl r => simp [hst, Status.isNotified] at hn

lemma step_resume (hturn : s.engine.turn = none) (hw : w < n)
    (hst : s.engine.status w = .notified ()) : step n s (w, .resume) = some (s.resume w) := by
  simp [step, hw, KState.canRun_of_turn_none hturn, hst]

lemma wraps_of_short (hturn : s.engine.turn = none) (hshort : s.sem.count < pending n s)
    (hlt : s.sem.count < 2 ^ 32) :
    ∃ s', Machine.Reaches (step n) s s' ∧ s'.wrapped = true := by
  -- induction on the counts that are left
  induction hc : s.sem.count generalizing s with
  | zero =>
    obtain ⟨w, hw, hst⟩ := exists_pending (by omega : 0 < pending n s)
    refine ⟨s.resume w, Machine.Reaches.head _ (step_resume hturn hw hst) (.refl _ _), ?_⟩
    rw [(resume_eq hw hst).2.2.2.2.2, hc]
    simp
  | succ c ih =>
    obtain ⟨w, hw, hst⟩ := exists_pending (by omega : 0 < pending n s)
    obtain ⟨h1, h2, h3, -⟩ := resume_eq hw hst
    obtain ⟨s', hr, hwr⟩ := ih h3 (by omega) (by omega) (by omega)
    exact ⟨s', Machine.Reaches.head _ (step_resume hturn hw hst) hr, hwr⟩

lemma unreserved_breaks (hi : Inv n value s) (h : step n s (t, op) = some s')
    (hg : ¬ Reserved n s (t, op)) : ∃ s'', Machine.Reaches (step n) s' s'' ∧ ¬ s''.Safe value := by
  suffices hshort : s'.engine.turn = none ∧ s'.sem.count < pending n s' ∧ s'.sem.count < 2 ^ 32 by
    obtain ⟨s'', hr, hwr⟩ := wraps_of_short hshort.1 hshort.2.1 hshort.2.2
    exact ⟨s'', hr, fun hsafe => by simp [Safe, hwr] at hsafe⟩
  have hlt := hi.lt
  obtain ⟨ht, ⟨ctx, try_, hop, hst, rfl⟩ | ⟨ctx, pick, rfl, hpost⟩ | ⟨rfl, -, -⟩⟩ := step_cases h
  · have hg' : ¬ (s.sem.count = 0 ∨ pending n s < s.sem.count) := by
      rcases hop with rfl | rfl <;> exact hg
    obtain ⟨h1, h2, h3, -⟩ := down_pos t ctx try_ (by omega) hlt
    have hpend : pending n (s.down t ctx try_) = pending n s := by unfold pending; rw [h2]
    exact ⟨h3, by omega, by omega⟩
  · obtain ⟨h1, h2, h3, -⟩ := post_cases hpost
    simp only [Reserved, not_or, not_and] at hg
    refine ⟨h2, ?_, by omega⟩
    rcases h3 with ⟨hno, h3⟩ | ⟨-, h3⟩
    · have : pending n s ≠ 0 := fun hz => hg.2 hz hno
      omega
    · omega
  · exact absurd trivial hg

/-- Runs whose steps keep a count for every notified waiter are safe in every state; and
one step that does not can be continued to an unsafe state. -/
theorem safe_of_meets (n value : Nat) (s₀ : SemSys) (h₀ : initial value = some s₀) :
    (∀ s, Machine.ReachesBy (step n) (Reserved n) s₀ s → s.Safe value) ∧
    (∀ s l s', Machine.ReachesBy (step n) (Reserved n) s₀ s →
      step n s l = some s' → ¬ Reserved n s l →
        ∃ s'', Machine.Reaches (step n) s' s'' ∧ ¬ s''.Safe value) := by
  have hinv : ∀ s, Machine.ReachesBy (step n) (Reserved n) s₀ s → Inv n value s := by
    rintro s ⟨ls, hrun, hmeets⟩
    exact Machine.inv_of_meets (step n) (fun _ _ _ hi hg h => inv_step hi hg h) (inv_initial h₀)
      hmeets hrun
  exact ⟨fun s hr => (hinv s hr).safe, fun s l s' hr h hg => unreserved_breaks (hinv s hr) h hg⟩

/-- A waiter sleeps, a post notifies it, and it completes. -/
theorem safe_of_meets_wakeup :
    ∃ s₀ s, initial 0 = some s₀ ∧ Machine.ReachesBy (step 2) (Reserved 2) s₀ s ∧
      s.completed = 1 ∧ s.Safe 0 := by
  have hreach : ∃ s, Machine.ReachesBy (step 2) (Reserved 2) ((initial 0).get rfl) s ∧
      s.completed = 1 :=
    ⟨_, ⟨[(1, .wait ⟨1, false⟩), (0, .post ⟨2, false⟩ (some 1)), (1, .resume)], rfl,
      by decide⟩, rfl⟩
  obtain ⟨s, hr, hc⟩ := hreach
  exact ⟨(initial 0).get rfl, s, rfl, hr, hc, (safe_of_meets 2 0 _ rfl).1 s hr⟩

/-- Thread 2 takes the count between the notify of thread 1 and its wake-up. -/
theorem not_safe :
    ∃ s₀ s, initial 0 = some s₀ ∧ Machine.Reaches (step 3) s₀ s ∧ s.sem.count = 2 ^ 32 - 1 ∧
      s.completed = 2 ∧ s.posts = 1 ∧ ¬ s.Safe 0 := by
  refine ⟨_, _, rfl, ⟨[(1, .wait ⟨1, false⟩), (0, .post ⟨2, false⟩ (some 1)),
    (2, .wait ⟨3, false⟩), (1, .resume)], rfl⟩, rfl, rfl, rfl, fun hsafe => ?_⟩
  exact absurd hsafe.2 (by decide)

end SemSys

end InputCovSched
