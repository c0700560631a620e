import InputCovSched.Lib.Lists
import InputCovSched.Lib.Machine
import Mathlib.Algebra.Order.Ring.Nat

/-!
# The spinlock under the uClibc wrappers (`spinlock_lock`, `spinlock_unlock` in `lib.cpp`)

`__sync_lock_test_and_set` returns what was in `taken` before; the code takes that for success.
So a thread that finds the lock taken goes on as its owner, and one that finds it free looks at
`owner`, spins once more and finds it taken by itself.

    two threads hold the lock; the second lock of one thread is forgotten  (spinlock_inverted)
    every call starts alone → at most one holder  (spinlock_of_meets)

`depth` is not in the source: how often a thread has locked and not unlocked since.
-/

namespace InputCovSched

open Function

/-- The fields of `pthread_mutex_t` that the spinlock uses. -/
structure SpinMutex where
  taken : Bool
  owner : Nat
  queued : Nat
  deriving DecidableEq, Repr

/-- The shared access that a thread makes next. -/
inductive SpinPc where
  | idle
  | testAndSet (istry : Bool)
  | testOwner (istry : Bool)
  /-- `SPIN_WAIT_UNTIL` -/
  | spin
  | setOwner
  | setQueued
  /-- `mutex->queued++` -/
  | loadQueued
  | storeQueued (v : Nat)
  | unlockTaken
  | unlockOwner
  | unlockQueued
  /-- `mutex->queued--` -/
  | loadCount
  | storeCount (v : Nat)
  | testCount
  | release
  deriving DecidableEq, Repr

inductive SpinNext where
  | goOn (pc : SpinPc)
  /-- `spinlock_lock` returns 0 -/
  | locked
  /-- `spinlock_unlock` returns 0 -/
  | unlocked
  /-- `EBUSY` or `EPERM` -/
  | refused
  deriving DecidableEq, Repr

def SpinMutex.access (m : SpinMutex) (t : Nat) : SpinPc → SpinMutex × SpinNext
  | .idle => (m, .goOn .idle)
  | .testAndSet istry =>
    ({ m with taken := true }, .goOn (if m.taken then .setOwner else .testOwner istry))
  | .testOwner istry =>
    (m, if m.owner = t then .goOn .loadQueued else if istry then .refused else .goOn .spin)
  | .spin => ({ m with taken := true }, .goOn (if m.taken then .setOwner else .spin))
  | .setOwner => ({ m with owner := t }, .goOn .setQueued)
  | .setQueued => ({ m with queued := 1 }, .locked)
  | .loadQueued => (m, .goOn (.storeQueued ((m.queued + 1) % 2 ^ 32)))
  | .storeQueued v => ({ m with queued := v }, .locked)
  | .unlockTaken => (m, if m.taken then .goOn .unlockOwner else .refused)
  | .unlockOwner => (m, if m.owner = t then .goOn .unlockQueued else .refused)
  | .unlockQueued => (m, .goOn (if 0 < m.queued then .loadCount else .release))
  | .loadCount => (m, .goOn (.storeCount (if m.queued = 0 then 2 ^ 32 - 1 else m.queued - 1)))
  | .storeCount v => ({ m with queued := v }, .goOn .testCount)
  | .testCount => (m, if m.queued ≠ 0 then .unlocked else .goOn .release)
  | .release => ({ m with taken := false }, .unlocked)

structure SpinState where
  mutex : SpinMutex
  pc : Nat → SpinPc
  depth : Nat → Nat

inductive SpinLabel where
  | lock (t : Nat) (istry : Bool)
  | unlock (t : Nat)
  | go (t : Nat)
  deriving DecidableEq, Repr

namespace SpinState

def init : SpinState := ⟨⟨false, 0, 0⟩, fun _ => .idle, fun _ => 0⟩

def advance (s : SpinState) (t : Nat) (m : SpinMutex) : SpinNext → SpinState
  | .goOn pc => { s with mutex := m, pc := update s.pc t pc }
  | .locked => ⟨m, update s.pc t .idle, update s.depth t (s.depth t + 1)⟩
  | .unlocked => ⟨m, update s.pc t .idle, update s.depth t (s.depth t - 1)⟩
  | .refused => { s with mutex := m, pc := update s.pc t .idle }

section
variable (n : Nat) (s : SpinState)

/-- Calls and accesses of the threads below `n`. -/
def step : SpinLabel → Option SpinState
  | .lock t istry =>
    if t < n ∧ s.pc t = .idle then some { s with pc := update s.pc t (.testAndSet istry) } else none
  | .unlock t =>
    if t < n ∧ s.pc t = .idle then some { s with pc := update s.pc t .unlockTaken } else none
  | .go t =>
    if t < n ∧ s.pc t ≠ .idle then
      let r := s.mutex.access t (s.pc t)
      some (s.advance t r.1 r.2)
    else none

/-- A thread that holds the lock is recorded with its count; it is about to release the lock
exactly at its last unlock. -/
def Counted : Prop :=
  ∀ t, t < n →
    (s.pc t = .idle → 0 < s.depth t → s.mutex = ⟨true, t, s.depth t⟩) ∧
    (s.pc t = .testCount → s.depth t = s.mutex.queued + 1) ∧ (s.pc t = .release → s.depth t = 1)

def Exclusive : Prop :=
  ∀ t, t < n → ∀ u, u < n → 0 < s.depth t → 0 < s.depth u → t = u

/-- Nobody is in a call and, for a lock, nobody holds it; an unlock by somebody who does not hold
it is refused. -/
def Alone : SpinLabel → Prop
  | .lock _ _ => ∀ u, u < n → s.pc u = .idle ∧ s.depth u = 0
  | .unlock t =>
    (∀ u, u < n → s.pc u = .idle) ∧ (s.mutex.taken = true → s.mutex.owner = t → 0 < s.depth t)
  | .go _ => True

end

instance (n : Nat) (s : SpinState) : Decidable (Counted n s) :=
  inferInstanceAs (Decidable (∀ t, t < n → _ ∧ _ ∧ _))

instance (n : Nat) (s : SpinState) : Decidable (Exclusive n s) :=
  inferInstanceAs (Decidable (∀ t, t < n → ∀ u, u < n → 0 < s.depth t → 0 < s.depth u → t = u))

instance (n : Nat) (s : SpinState) : ∀ l, Decidable (Alone n s l)
  | .lock _ _ => inferInstanceAs (Decidable (∀ u, u < n → s.pc u = .idle ∧ s.depth u = 0))
  | .unlock t => inferInstanceAs (Decidable ((∀ u, u < n → s.pc u = .idle) ∧
      (s.mutex.taken = true → s.mutex.owner = t → 0 < s.depth t)))
  | .go _ => isTrue trivial

/-! ## The invariant -/

/-- The mutex between two calls, with its holder. -/
def Rest (m : SpinMutex) : Option Nat → Prop
  | none => m.queued = 0
  | some h => m = ⟨true, h, 1⟩

/-- The mutex before an access of thread `t`, who alone is in a call. -/
def Fits (m : SpinMutex) (holder : Option Nat) (t : Nat) : SpinPc → Prop
  | .idle => Rest m holder
  | .testAndSet _ => holder = none ∧ m.queued = 0
  | .testOwner _ | .spin => holder = none ∧ m.taken = true ∧ m.queued = 0
  | .setOwner => holder = none ∧ m.taken = true
  | .setQueued => holder = none ∧ m.taken = true ∧ m.owner = t
  | .loadQueued => holder = none ∧ m = ⟨true, t, 0⟩
  | .storeQueued v => holder = none ∧ m = ⟨true, t, 0⟩ ∧ v = 1
  | .unlockTaken => Rest m holder ∧ (m.taken = true → m.owner = t → holder = some t)
  | .unlockOwner => Rest m holder ∧ (m.owner = t → holder = some t)
  | .unlockQueued | .loadCount => holder = some t ∧ m = ⟨true, t, 1⟩
  | .storeCount v => holder = some t ∧ m = ⟨true, t, 1⟩ ∧ v = 0
  | .testCount | .release => holder = some t ∧ m = ⟨true, t, 0⟩

/-- What holds behind an access. -/
def Leads (m : SpinMutex) (holder : Option Nat) (t : Nat) : SpinNext → Prop
  | .goOn pc => Fits m holder t pc
  | .locked => holder = none ∧ Rest m (some t)
  | .unlocked => holder = some t ∧ Rest m none
  | .refused => Rest m holder

variable {u : Nat} {pc : SpinPc}

lemma Fits.access {holder : Option Nat} (h : Fits m holder t pc) :
    Leads (m.access t pc).1 holder t (m.access t pc).2 := by
  obtain ⟨taken, owner, queued⟩ := m
  cases pc with
  | idle => exact h
  | testAndSet istry =>
    obtain ⟨rfl, rfl⟩ := h
    cases taken <;> simp [SpinMutex.access, Leads, Fits]
  | testOwner istry =>
    obtain ⟨rfl, rfl, rfl⟩ := h
    by_cases ho : owner = t <;> cases istry <;> simp [SpinMutex.access, Leads, Fits, Rest, ho]
  | setOwner => exact ⟨h.1, h.2, rfl⟩
  | spin | setQueued =>
    obtain ⟨rfl, rfl, rfl⟩ := h
    exact ⟨rfl, rfl⟩
  | loadQueued | loadCount =>
    obtain ⟨rfl, ⟨⟩⟩ := h
    exact ⟨rfl, rfl, rfl⟩
  | storeQueued v | storeCount v =>
    obtain ⟨rfl, ⟨⟩, rfl⟩ := h
    exact ⟨rfl, rfl⟩
  | unlockTaken =>
    cases taken with
    | false => exact h.1
    | true => exact ⟨h.1, h.2 rfl⟩
  | unlockOwner =>
    obtain ⟨hrest, ho⟩ := h
    by_cases hot : owner = t
    · obtain rfl := ho hot
      simpa [SpinMutex.access, Leads, Fits, Rest, hot] using hrest
    · simpa [SpinMutex.access, Leads, hot] using hrest
  | unlockQueued | testCount | release =>
    obtain ⟨rfl, ⟨⟩⟩ := h
    exact ⟨rfl, rfl⟩

/-- `t` alone may be in a call, and only the holder's depth is not 0. -/
structure Inv (n : Nat) (s : SpinState) (holder : Option Nat) (t : Nat) : Prop where
  depth : ∀ u, s.depth u = if holder = some u then 1 else 0
  others : ∀ u, u ≠ t → s.pc u = .idle
  fits : Fits s.mutex holder t (s.pc t)
  lt : s.pc t ≠ .idle → t < n
  holder_lt : ∀ h, holder = some h → h < n

variable {n : Nat} {s : SpinState} {l : SpinLabel} {holder : Option Nat}

lemma Inv.rest (h : Inv n s holder t) (hall : ∀ u, u < n → s.pc u = .idle) :
    (∀ u, s.pc u = .idle) ∧ Rest s.mutex holder := by
  have ht : s.pc t = .idle := by
    by_contra hne
    exact hne (hall t (h.lt hne))
  have hfits := h.fits
  rw [ht] at hfits
  refine ⟨fun u => ?_, hfits⟩
  by_cases hut : u = t
  · rw [hut, ht]
  · exact h.others u hut

attribute [local simp] SpinState.advance

lemma Inv.advance (h : Inv n s holder t) (hu : u < n)
    (hall : ∀ v, v ≠ u → s.pc v = .idle) (hl : Leads m holder u r) :
    ∃ holder t, Inv n (s.advance u m r) holder t := by
  have hothers (pc : SpinPc) : ∀ v, v ≠ u → update s.pc u pc v = .idle :=
    fun v hv => (update_of_ne hv _ _).trans (hall v hv)
  have hself (o : Option Nat) (pc : SpinPc) (hf : Fits m o u pc) :
      Fits m o u (update s.pc u pc u) := by rwa [update_self]
  have hd := h.depth
  cases r with
  | goOn pc => exact ⟨holder, u, hd, hothers pc, hself _ _ hl, fun _ => hu, h.holder_lt⟩
  | refused => exact ⟨holder, u, hd, hothers .idle, hself _ .idle hl, fun _ => hu, h.holder_lt⟩
  | locked =>
    obtain ⟨rfl, hr⟩ := hl
    refine ⟨some u, u, fun v => ?_, hothers .idle, hself _ .idle hr, fun _ => hu, fun v hv => ?_⟩
    · by_cases hvu : v = u
      · simp [hvu, hd]
      · simp [hvu, hd, Ne.symm hvu]
    · exact Option.some.inj hv ▸ hu
  | unlocked =>
    obtain ⟨rfl, hr⟩ := hl
    refine ⟨none, u, fun v => ?_, hothers .idle, hself _ .idle hr, fun _ => hu, by simp⟩
    by_cases hvu : v = u
    · simp [hvu, hd]
    · simp [hvu, hd, Ne.symm hvu]

lemma inv_init : Inv n init none 0 :=
  ⟨fun _ => rfl, fun _ _ => rfl, rfl, fun h => (h rfl).elim, nofun⟩

lemma inv_step (hi : ∃ holder t, Inv n s holder t) (hok : Alone n s l)
    (h : step n s l = some s') : ∃ holder t, Inv n s' holder t := by
  obtain ⟨holder, t, hi⟩ := hi
  cases l with
  | lock u istry =>
    obtain ⟨⟨hu, -⟩, h⟩ := Option.ite_none_right_eq_some.1 h
    cases h
    obtain ⟨hall, hrest⟩ := hi.rest fun v hv => (hok v hv).1
    cases holder with
    | none => exact hi.advance (r := .goOn (.testAndSet istry)) hu (fun v _ => hall v) ⟨rfl, hrest⟩
    | some h =>
      have := (hok h (hi.holder_lt h rfl)).2
      simp [hi.depth] at this
  | unlock u =>
    obtain ⟨⟨hu, -⟩, h⟩ := Option.ite_none_right_eq_some.1 h
    cases h
    obtain ⟨hall, hrest⟩ := hi.rest hok.1
    refine hi.advance (r := .goOn .unlockTaken) hu (fun v _ => hall v) ⟨hrest, fun h₁ h₂ => ?_⟩
    have hpos := hok.2 h₁ h₂
    by_contra hne
    simp [hi.depth, hne] at hpos
  | go u =>
    obtain ⟨⟨hu, hpc⟩, h⟩ := Option.ite_none_right_eq_some.1 h
    cases h
    obtain rfl : u = t := by
      by_contra hut
      exact hpc (hi.others u hut)
    exact hi.advance hu hi.others hi.fits.access

lemma Inv.holder_eq (h : Inv n s holder t) (hu : 0 < s.depth u) : holder = some u := by
  by_contra hne
  simp [h.depth, hne] at hu

lemma Inv.exclusive (h : Inv n s holder t) : Exclusive n s := fun _ _ _ _ hu hv =>
  Option.some.inj ((h.holder_eq hu).symm.trans (h.holder_eq hv))

lemma Fits.rest (h : Fits m (some u) t pc) (hpc : u = t → pc = .idle) : Rest m (some u) := by
  cases pc with
  | idle => exact h
  | unlockTaken => exact h.1
  | unlockOwner => exact h.1
  | testAndSet _ | testOwner _ | spin | setOwner | setQueued | loadQueued | storeQueued _ =>
    cases h.1
  | unlockQueued | loadCount | storeCount _ | testCount | release =>
    cases hpc (Option.some.inj h.1)

lemma Inv.counted (h : Inv n s holder t) : Counted n s := by
  intro u _
  have hfits := h.fits
  have hd := h.depth u
  have hbusy (hpc : s.pc u ≠ .idle) : u = t := by
    by_contra hut
    exact hpc (h.others u hut)
  refine ⟨fun hpc hpos => ?_, fun hpc => ?_, fun hpc => ?_⟩
  · obtain rfl := h.holder_eq hpos
    rw [hd, if_pos rfl]
    exact hfits.rest fun hut => hut ▸ hpc
  · obtain rfl := hbusy (by simp [hpc])
    rw [hpc] at hfits
    obtain ⟨rfl, hm⟩ := hfits
    simp [hd, hm]
  · obtain rfl := hbusy (by simp [hpc])
    rw [hpc] at hfits
    obtain ⟨rfl, -⟩ := hfits
    simp [hd]

/-- Any number of threads, any order of their accesses, as long as every call starts alone. -/
theorem spinlock_of_meets (h : Machine.ReachesBy (step n) (Alone n) init s) :
    Exclusive n s ∧ Counted n s := by
  obtain ⟨ls, hrun, hmeets⟩ := h
  obtain ⟨holder, t, hi⟩ := Machine.inv_of_meets (step n) (fun _ _ _ => inv_step)
    ⟨none, 0, inv_init⟩ hmeets hrun
  exact ⟨hi.exclusive, hi.counted⟩

/-- Thread 1 locks a free mutex, thread 0 is refused, thread 1 is about to release it. -/
theorem spinlock_two_threads :
    ∃ s, Machine.ReachesBy (step 2) (Alone 2) init s ∧ s.pc 1 = .release ∧ s.depth 1 = 1 ∧
      Exclusive 2 s ∧ Counted 2 s :=
  have h : Machine.ReachesBy (step 2) (Alone 2) init _ :=
    ⟨[.lock 1 false, .go 1, .go 1, .go 1, .go 1, .go 1, .unlock 0, .go 0, .go 0,
      .unlock 1, .go 1, .go 1, .go 1, .go 1, .go 1, .go 1], rfl, by decide⟩
  ⟨_, h, rfl, rfl, spinlock_of_meets h⟩

/-- Thread 1 holds the mutex and thread 0 gets it as well; thread 1 locks twice and is about to
release it at its first unlock. -/
theorem spinlock_inverted :
    (∃ s, Machine.Reaches (step 2) init s ∧ s.depth 1 = 1 ∧ s.depth 0 = 1 ∧ ¬ Exclusive 2 s) ∧
      ∃ s, Machine.Reaches (step 2) init s ∧ s.depth 1 = 2 ∧ s.pc 1 = .release ∧ ¬ Counted 2 s :=
  ⟨⟨_, ⟨[.lock 1 false, .go 1, .go 1, .go 1, .go 1, .go 1, .lock 0 false, .go 0, .go 0, .go 0],
    rfl⟩, rfl, rfl, by decide⟩,
  ⟨_, ⟨[.lock 1 false, .go 1, .go 1, .go 1, .go 1, .go 1, .lock 1 false, .go 1, .go 1, .go 1,
    .unlock 1, .go 1, .go 1, .go 1, .go 1, .go 1, .go 1], rfl⟩, rfl, rfl, by decide⟩⟩

end SpinState

end InputCovSched
