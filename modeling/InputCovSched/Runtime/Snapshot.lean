import InputCovSched.Runtime.RegionBarrier

/-!
# The snapshot of the stack variables (`SnapshotStackVars` in `lib.cpp`)

The thread that ends a region copies the current logs of the threads `0 … NumThreadsTotal - 1`.
Logs are indexed by thread id, and after an exit a live thread can have an id that is not below the
number of live threads. A snapshot is complete exactly when no such thread has logged anything
since its log was copied (`snapshot_complete_iff`).
-/

namespace InputCovSched

open Tally Function List

/-- `__ics_stackvars8` to `__ics_stackvars64`. -/
inductive LogWidth where
  | w8
  | w16
  | w32
  | w64
  deriving DecidableEq, Repr

/-- `[tid][oid]` of the four tables. -/
abbrev StackLog := LogWidth → Nat → Nat → Nat

/-- A `memcpy` of the log of thread `k`; `nelem` are the sizes. -/
def snapshotStackVarsLog (nelem : LogWidth → Nat → Nat) (curr : StackLog) (k : Nat)
    (snapshot : StackLog) (w : LogWidth) : StackLog := fun w' k' oid =>
  if w' = w ∧ k' = k ∧ oid < nelem w k then curr w k oid else snapshot w' k' oid

def snapshotStackVars (nelem : LogWidth → Nat → Nat) (numT : Nat) (curr snapshot : StackLog) :
    StackLog :=
  (List.range numT).foldl
    (fun snapshot k => [.w8, .w16, .w32, .w64].foldl (snapshotStackVarsLog nelem curr k) snapshot)
    snapshot

/-- `curr` is `[LogCurrIndex]`, `snapshot` is `[LogSnapshotIndex]`. -/
structure SnapshotState where
  barrier : BarrierState
  curr : StackLog
  snapshot : StackLog

inductive SnapshotLabel where
  | barrier (l : BarrierLabel)
  | logvar (t : Nat) (w : LogWidth) (oid val : Nat)
  /-- the first fragment of the next region has a next selector -/
  | snapshot (t : Nat)
  deriving DecidableEq, Repr

namespace SnapshotState

def step (nelem : LogWidth → Nat → Nat) (n : Nat) (s : SnapshotState) :
    SnapshotLabel → Option SnapshotState
  | .barrier l => (s.barrier.step n l).map fun b => { s with barrier := b }
  | .logvar t w oid val =>
    if t < n ∧ s.barrier.pc t = .run ∧ oid < nelem w t then
      some { s with curr := update s.curr w (update (s.curr w) t (update (s.curr w t) oid val)) }
    else none
  | .snapshot t =>
    if t < n ∧ s.barrier.pc t = .selecting then
      some { s with
        snapshot := snapshotStackVars nelem s.barrier.numThreadsTotal.toNat s.curr s.snapshot }
    else none

/-- The thread is counted in `NumThreadsTotal`. -/
def Live (s : SnapshotState) (k : Nat) : Prop := BarrierState.inTotal (s.barrier.pc k) = true

/-- The snapshot of thread `k` is its current log. -/
def Copied (nelem : LogWidth → Nat → Nat) (s : SnapshotState) (k : Nat) : Prop :=
  ∀ w oid, oid < nelem w k → s.snapshot w k oid = s.curr w k oid

variable {nelem : LogWidth → Nat → Nat} {n t : Nat} {s s' : SnapshotState}

lemma snapshotStackVars_apply {curr snapshot : StackLog} (numT : Nat) (w : LogWidth) (k oid : Nat) :
    snapshotStackVars nelem numT curr snapshot w k oid =
      if k < numT ∧ oid < nelem w k then curr w k oid else snapshot w k oid := by
  induction numT with
  | zero => simp [snapshotStackVars]
  | succ numT ih =>
    unfold snapshotStackVars at ih ⊢
    rw [range_succ, foldl_append, foldl_cons, foldl_nil]
    simp only [foldl_cons, foldl_nil, snapshotStackVarsLog]
    cases w <;> grind

lemma total_step (hi : s.barrier.TotalRight n) (h : step nelem n s l = some s') :
    s'.barrier.TotalRight n := by
  cases l with
  | barrier l =>
    obtain ⟨b, hb, rfl⟩ := Option.map_eq_some_iff.1 h
    exact BarrierState.total_step hi hb
  | logvar t w oid val | snapshot t =>
    obtain ⟨-, h⟩ := Option.ite_none_right_eq_some.1 h
    cases h
    exact hi

/-- For every history of creates, exits, region barriers and logged variables. -/
theorem snapshot_complete_iff (hn : 0 < n) {curr snapshot : StackLog}
    (h : Machine.Reaches (step nelem n) ⟨.init, curr, snapshot⟩ s)
    (hs : step nelem n s (.snapshot t) = some s') :
    (∀ k, k < n → s'.Live k → s'.Copied nelem k) ↔
      ∀ k, k < n → s.Live k →
        k < countIf n BarrierState.inTotal s.barrier.pc ∨ s.Copied nelem k := by
  obtain ⟨ls, hrun⟩ := h
  have htot : s.barrier.numThreadsTotal = countIf n BarrierState.inTotal s.barrier.pc :=
    Machine.inv_of_run (step nelem n) (I := fun s => s.barrier.TotalRight n)
      (fun _ _ _ => total_step) (BarrierState.total_init hn) hrun
  obtain ⟨-, hs⟩ := Option.ite_none_right_eq_some.1 hs
  cases hs
  refine forall₂_congr fun k _ => imp_congr_right fun _ => ?_
  simp only [Copied, snapshotStackVars_apply, htot, Int.toNat_natCast]
  by_cases hk : k < countIf n BarrierState.inTotal s.barrier.pc
  · simp +contextual [hk]
  · simp [hk]

/-- Threads 0 and 1 end a region; thread 1 has logged a variable. -/
theorem snapshot_complete_two_threads :
    ∃ s s', Machine.Reaches (step (fun _ _ => 1) 2) ⟨.init, fun _ _ _ => 0, fun _ _ _ => 0⟩ s ∧
      step (fun _ _ => 1) 2 s (.snapshot 1) = some s' ∧ s.curr .w32 1 0 = 7 ∧
      ∀ k, k < 2 → s'.Live k → s'.Copied (fun _ _ => 1) k := by
  have h : Machine.Reaches (step (fun _ _ => 1) 2) ⟨.init, fun _ _ _ => 0, fun _ _ _ => 0⟩ _ :=
    ⟨[.barrier (.create 0 1), .barrier (.createTotal 0), .barrier (.spawn 0), .logvar 1 .w32 0 7,
      .barrier (.arrive 0), .barrier (.enter 0), .barrier (.arrive 1), .barrier (.enter 1)], rfl⟩
  refine ⟨_, _, h, rfl, rfl, ?_⟩
  exact (snapshot_complete_iff (t := 1) (by decide) h rfl).2 fun _ hk _ => .inl hk

/-- Thread 1 has exited: two threads are live and the id of the second one is 2. -/
theorem snapshot_misses_thread :
    ∃ s s', Machine.Reaches (step (fun _ _ => 1) 3) ⟨.init, fun _ _ _ => 0, fun _ _ _ => 0⟩ s ∧
      step (fun _ _ => 1) 3 s (.snapshot 0) = some s' ∧ s'.Live 2 ∧ ¬ s'.Copied (fun _ _ => 1) 2 :=
  ⟨_, _, ⟨[.barrier (.create 0 1), .barrier (.createTotal 0), .barrier (.spawn 0),
    .barrier (.create 0 2), .barrier (.createTotal 0), .barrier (.spawn 0),
    .barrier (.exitRunning 1), .barrier (.exitTotal 1), .barrier (.leave 1), .logvar 2 .w32 0 7,
    .barrier (.arrive 2), .barrier (.enter 2), .barrier (.arrive 0), .barrier (.enter 0)], rfl⟩,
    rfl, rfl, fun h => absurd (h .w32 0 Nat.one_pos) (by decide)⟩

end SnapshotState

end InputCovSched
