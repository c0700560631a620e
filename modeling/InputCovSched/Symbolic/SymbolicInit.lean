import InputCovSched.Symbolic.QueueCountsAgree

/-!
# Symbolic initial states (`mutex_init_symbolic`, `cond_init_symbolic`, `barrier_init_symbolic`)

An object of the region's initial state is symbolic when it is used first. What is assumed of its
fields then: between `must` and `may` threads wait, by the static analysis. Of a barrier, whose
counter counts down, the two bounds are assumed the wrong way round.

    a barrier with two possible numbers of waiters is excluded  (barrier_excluded)
    every other reachable state is admitted  (symbolic_init_iff)
-/

namespace InputCovSched

/-- `a - b` on unsigned ints. -/
def usub (a b : Nat) : Nat := (a + 2 ^ 32 - b) % 2 ^ 32

/-- What `klee_enumerate_possible_lock_owners` and the caller's `taken = 0` say of a mutex; `none` is
the answer "any". -/
def PossibleOwner (owners : Option (List Nat)) (m : Mutex) : Prop :=
  ∀ os ∈ owners, m.taken = true → m.owner ∈ os

/-- What `klee_enumerate_possible_barrier_init_counts` says of a barrier. -/
def PossibleInitCount (counts : Option (List Nat)) (b : Barrier) : Prop :=
  ∀ cs ∈ counts, b.initCount ∈ cs

def mutexInitSymbolic (owners : Option (List Nat)) (may must : Nat) (m : Mutex) : Prop :=
  PossibleOwner owners m ∧ must ≤ m.queued ∧ m.queued ≤ may

def condInitSymbolic (may must : Nat) (c : Cond) : Prop := must ≤ c.queued ∧ c.queued ≤ may

def barrierInitSymbolic (counts : Option (List Nat)) (may must : Nat) (b : Barrier) : Prop :=
  PossibleInitCount counts b ∧ usub b.initCount must ≤ b.left ∧ b.left ≤ usub b.initCount may

lemma barrier_bounds_iff {b : Barrier} (hc : b.initCount < 2 ^ 32)
    (hle : b.left ≤ b.initCount) (hw : b.initCount - b.left = w) (hmust : must ≤ w)
    (hwmay : w ≤ may) (hmay : may < 2 ^ 32) :
    usub b.initCount must ≤ b.left ∧ b.left ≤ usub b.initCount may ↔
      w = must ∧ (may = w ∨ b.initCount < may) := by
  unfold usub
  omega

namespace SyncSys

/-- In every reachable state and for all bounds on the number of waiters that hold there, the
assumptions on mutexes and condition variables hold; those on a barrier hold exactly when `must` is
the number of its waiters and `may` is that number too, or is so large that the bound wraps. -/
theorem symbolic_init_iff (n : Nat) (s : SyncSys) (h : Machine.Reaches (step n) initial s)
    (i may must : Nat) (hmay : may < 2 ^ 32) :
    (∀ owners, PossibleOwner owners (s.mutexes i) → must ≤ s.engine.asleep n (s.mutexes i).wlist →
      s.engine.asleep n (s.mutexes i).wlist ≤ may →
      (s.mutexes i).queued = s.engine.asleep n (s.mutexes i).wlist ∧
        mutexInitSymbolic owners may must (s.mutexes i)) ∧
    (must ≤ s.engine.asleep n (s.conds i).wlist → s.engine.asleep n (s.conds i).wlist ≤ may →
      (s.conds i).queued = s.engine.asleep n (s.conds i).wlist ∧
        condInitSymbolic may must (s.conds i)) ∧
    (∀ counts, PossibleInitCount counts (s.barriers i) →
      must ≤ s.engine.asleep n (s.barriers i).wlist →
      s.engine.asleep n (s.barriers i).wlist ≤ may →
      (s.barriers i).left = (s.barriers i).initCount - s.engine.asleep n (s.barriers i).wlist ∧
        (barrierInitSymbolic counts may must (s.barriers i) ↔
          s.engine.asleep n (s.barriers i).wlist = must ∧
            (may = s.engine.asleep n (s.barriers i).wlist ∨ (s.barriers i).initCount < may))) := by
  obtain ⟨ls, hrun⟩ := h
  have hi : Inv n s := Machine.inv_of_run (step n) (I := Inv n)
    (fun _ _ _ hs hstep => inv_step hs hstep) (inv_initial n) hrun
  refine ⟨fun owners ho hmust hw => ?_, fun hmust hw => ?_, fun counts hcounts hmust hw => ?_⟩
  · have hq : (s.mutexes i).queued = s.engine.asleep n (s.mutexes i).wlist % 2 ^ 32 :=
      (hi.mutex i).agree
    rw [Nat.mod_eq_of_lt (by omega)] at hq
    exact ⟨hq, ho, by omega, by omega⟩
  · have hq : (s.conds i).queued = s.engine.asleep n (s.conds i).wlist % 2 ^ 32 := (hi.cond i).agree
    rw [Nat.mod_eq_of_lt (by omega)] at hq
    exact ⟨hq, by omega, by omega⟩
  · obtain ⟨hc, hle, -, heq⟩ := (hi.barrier i).agree
    refine ⟨?_, (and_iff_right hcounts).trans (barrier_bounds_iff hc hle heq hmust hw hmay)⟩
    have heq' : (s.barriers i).initCount - (s.barriers i).left =
      s.engine.asleep n (s.barriers i).wlist := heq
    have hle' : (s.barriers i).left ≤ (s.barriers i).initCount := hle
    omega

/-- A barrier for two, with one waiter that both bounds know. -/
theorem symbolic_init_one_waiter :
    ∃ s, Machine.Reaches (step 2) initial s ∧ s.engine.asleep 2 (s.barriers 0).wlist = 1 ∧
      barrierInitSymbolic (some [2]) 1 1 (s.barriers 0) :=
  have h : Machine.Reaches (step 2) initial _ :=
    ⟨[(0, some (.barrierInit 0 2)), (0, some (.barrierWait 0 ⟨1, false⟩))], rfl⟩
  have hcount : PossibleInitCount (some [2]) _ := fun cs hcs => by
    cases hcs
    exact List.mem_singleton.2 rfl
  ⟨_, h, rfl, ((symbolic_init_iff 2 _ h 0 1 1 (by decide)).2.2 _ hcount (by decide) (by decide)).2.2
    ⟨rfl, .inl rfl⟩⟩

/-- A new barrier for two, at which one thread may wait: that nobody does is excluded. -/
theorem barrier_excluded :
    ∃ s, Machine.Reaches (step 2) initial s ∧ s.engine.asleep 2 (s.barriers 0).wlist = 0 ∧
      (s.barriers 0).left = 2 ∧ ¬ barrierInitSymbolic none 1 0 (s.barriers 0) :=
  ⟨_, ⟨[(0, some (.barrierInit 0 2))], rfl⟩, rfl, rfl, fun h => absurd h.2.2 (by decide)⟩

end SyncSys

end InputCovSched
