import InputCovSched.Lib.Count
import InputCovSched.Lib.Lists
import InputCovSched.Lib.Machine

/-!
# The region barrier (`RegionBarrier`, `pthread_create`, `pthread_exit` in `lib.cpp`)

An arriving thread takes itself off `NumThreadsRunningInRegion`; the one that finds 0 picks the
next region, sets the count back to `NumThreadsTotal` and moves the ticker that the others wait
for. A thread that exits takes itself off both counts, one after the other, and looks at neither.

    the last running thread exits while others wait  (stranded_by_exit)
    the total is read between the two decrements of an exit
      (stranded_by_late_exit, late_exit_counted)
    no such step → never stranded  (not_stranded_of_meets)
    no step of the second kind → the count is right  (running_eq_of_meets)
-/

namespace InputCovSched

open Tally Function List

/-- Where a thread stands between its accesses to the counters. -/
inductive BarrierPc where
  | absent
  /-- counted as running, by the creator -/
  | born
  /-- counted in the total as well, not started yet -/
  | counted
  | run
  /-- in `RegionBarrier`, with the ticker it has read -/
  | arriving (oldticker : Nat)
  /-- in `WaitAtRegionBarrier` -/
  | waiting (oldticker : Nat)
  /-- found 0 threads left -/
  | selecting
  /-- in `ReleaseRegionBarrier`, with the total it has read -/
  | releasing (numThreadsTotal : Int)
  /-- the count is set back, the ticker is next -/
  | publishing
  | creating (child : Nat)
  /-- in `pthread_exit` behind the first decrement -/
  | exiting
  /-- behind the second -/
  | exited
  deriving DecidableEq, Repr

structure BarrierState where
  numThreadsRunningInRegion : Int
  numThreadsTotal : Int
  regionTicker : Nat
  pc : Nat → BarrierPc

inductive BarrierLabel where
  | arrive (t : Nat)
  | enter (t : Nat)
  | wake (t : Nat)
  | readTotal (t : Nat)
  | writeRunning (t : Nat)
  | tick (t : Nat)
  | create (t child : Nat)
  | createTotal (t : Nat)
  | spawn (t : Nat)
  | exitRunning (t : Nat)
  | exitTotal (t : Nat)
  | leave (t : Nat)
  deriving DecidableEq, Repr

namespace BarrierState

def init : BarrierState := ⟨1, 1, 0, fun t => if t = 0 then .run else .absent⟩

def setPc (s : BarrierState) (t : Nat) (pc : BarrierPc) : BarrierState :=
  { s with pc := update s.pc t pc }

/-- The shared accesses of threads below `n`, each a step. -/
def step (n : Nat) (s : BarrierState) : BarrierLabel → Option BarrierState
  | .arrive t =>
    if t < n ∧ s.pc t = .run then some (s.setPc t (.arriving s.regionTicker)) else none
  | .enter t =>
    match s.pc t with
    | .arriving oldticker =>
      if t < n then
        let left := s.numThreadsRunningInRegion - 1
        some ({ s with numThreadsRunningInRegion := left }.setPc t
          (if left = 0 then .selecting else .waiting oldticker))
      else none
    | _ => none
  | .wake t =>
    match s.pc t with
    | .waiting oldticker =>
      if t < n ∧ s.regionTicker ≠ oldticker then some (s.setPc t .run) else none
    | _ => none
  | .readTotal t =>
    if t < n ∧ s.pc t = .selecting then some (s.setPc t (.releasing s.numThreadsTotal)) else none
  | .writeRunning t =>
    match s.pc t with
    | .releasing m =>
      if t < n then some ({ s with numThreadsRunningInRegion := m }.setPc t .publishing) else none
    | _ => none
  | .tick t =>
    if t < n ∧ s.pc t = .publishing then
      some ({ s with regionTicker := s.regionTicker + 1 }.setPc t .run)
    else none
  | .create t child =>
    if t < n ∧ child < n ∧ s.pc t = .run ∧ s.pc child = .absent then
      some (({ s with numThreadsRunningInRegion := s.numThreadsRunningInRegion + 1 }.setPc t
        (.creating child)).setPc child .born)
    else none
  | .createTotal t =>
    match s.pc t with
    | .creating child =>
      if t < n ∧ child < n ∧ s.pc child = .born then
        some ({ s with numThreadsTotal := s.numThreadsTotal + 1 }.setPc child .counted)
      else none
    | _ => none
  | .spawn t =>
    match s.pc t with
    | .creating child =>
      if t < n ∧ child < n ∧ s.pc child = .counted then some ((s.setPc child .run).setPc t .run)
      else none
    | _ => none
  | .exitRunning t =>
    if t < n ∧ s.pc t = .run then
      some ({ s with numThreadsRunningInRegion := s.numThreadsRunningInRegion - 1 }.setPc t .exiting)
    else none
  | .exitTotal t =>
    if t < n ∧ s.pc t = .exiting then
      some ({ s with numThreadsTotal := s.numThreadsTotal - 1 }.setPc t .exited)
    else none
  | .leave t => if t < n ∧ s.pc t = .exited then some (s.setPc t .absent) else none

def Alive (s : BarrierState) (t : Nat) : Prop :=
  s.pc t ≠ .absent ∧ s.pc t ≠ .born ∧ s.pc t ≠ .counted

/-- Everybody who is left waits for a ticker that nobody moves. -/
def Stranded (n : Nat) (s : BarrierState) : Prop :=
  (∃ t, t < n ∧ s.Alive t) ∧ ∀ t, t < n → s.Alive t → s.pc t = .waiting s.regionTicker

instance (s : BarrierState) (t : Nat) : Decidable (s.Alive t) :=
  inferInstanceAs (Decidable (_ ∧ _ ∧ _))

instance (n : Nat) (s : BarrierState) : Decidable (Stranded n s) :=
  have : Decidable (∃ t, t < n ∧ s.Alive t) :=
    decidable_of_iff (∃ t ∈ List.range n, s.Alive t) (by simp)
  inferInstanceAs (Decidable (_ ∧ ∀ t, t < n → s.Alive t → s.pc t = .waiting s.regionTicker))

def TotalOk (n : Nat) (s : BarrierState) : BarrierLabel → Prop
  | .readTotal _ => ∀ u, u < n → s.pc u ≠ .exiting
  | _ => True

/-- Nor does an exit take the last running thread away from threads that wait. -/
def ExitOk (n : Nat) (s : BarrierState) : BarrierLabel → Prop
  | .exitRunning _ =>
    s.numThreadsRunningInRegion = 1 → ∀ u, u < n → s.pc u ≠ .waiting s.regionTicker
  | .readTotal _ => ∀ u, u < n → s.pc u ≠ .exiting
  | _ => True

instance (n : Nat) (s : BarrierState) : ∀ l, Decidable (ExitOk n s l)
  | .exitRunning _ =>
    inferInstanceAs (Decidable (_ → ∀ u, u < n → s.pc u ≠ .waiting s.regionTicker))
  | .readTotal _ => inferInstanceAs (Decidable (∀ u, u < n → s.pc u ≠ .exiting))
  | .arrive _ | .enter _ | .wake _ | .writeRunning _ | .tick _ | .create _ _ | .createTotal _
  | .spawn _ | .exitTotal _ | .leave _ => isTrue trivial

def Quiet (n : Nat) (s : BarrierState) : Prop :=
  ∀ t, t < n → s.pc t ≠ .born ∧ s.pc t ≠ .exiting

/-- Lives and has not arrived at the barrier of the current region. `ReleaseRegionBarrier` sets
the count back before it moves the ticker: behind that nobody has arrived at the next barrier. -/
def notArrived (ticker : Nat) (released : Bool) : BarrierPc → Bool
  | .counted | .run | .arriving _ | .creating _ | .publishing => true
  | .waiting oldticker => released || oldticker != ticker
  | .absent | .born | .selecting | .releasing _ | .exiting | .exited => false

def numNotArrived (n : Nat) (s : BarrierState) : Nat :=
  countIf n (notArrived s.regionTicker ((List.range n).any fun t => s.pc t = .publishing)) s.pc

instance (n : Nat) (s : BarrierState) : ∀ l, Decidable (TotalOk n s l)
  | .readTotal _ => inferInstanceAs (Decidable (∀ u, u < n → s.pc u ≠ .exiting))
  | .arrive _ | .enter _ | .wake _ | .writeRunning _ | .tick _ | .create _ _ | .createTotal _
  | .spawn _ | .exitRunning _ | .exitTotal _ | .leave _ => isTrue trivial

instance (n : Nat) (s : BarrierState) : Decidable (Quiet n s) :=
  inferInstanceAs (Decidable (∀ t, t < n → s.pc t ≠ .born ∧ s.pc t ≠ .exiting))

/-! ## The invariant -/

/-- Counted in `NumThreadsRunningInRegion` while nobody releases the barrier. -/
def inRegion (ticker : Nat) : BarrierPc → Bool
  | .born | .counted | .run | .arriving _ | .creating _ => true
  | .waiting oldticker => oldticker != ticker
  | .absent | .selecting | .releasing _ | .publishing | .exiting | .exited => false

/-- Counted in `NumThreadsTotal`. -/
def inTotal : BarrierPc → Bool
  | .absent | .born | .exited => false
  | .counted | .run | .arriving _ | .waiting _ | .selecting | .releasing _ | .publishing
  | .creating _ | .exiting => true

/-- Releases the barrier. -/
def closes : BarrierPc → Bool
  | .selecting | .releasing _ | .publishing => true
  | _ => false

/-- Counted in `NumThreadsTotal` and not on its way out. -/
def stays : BarrierPc → Bool
  | .exiting => false
  | pc => inTotal pc

/-- Nobody releases the barrier: the count is not too small, and right if all releases were. -/
structure Open (n : Nat) (exact : Prop) (s : BarrierState) : Prop where
  noCloser : ∀ t, t < n → closes (s.pc t) = false
  running : (countIf n (inRegion s.regionTicker) s.pc : Int) ≤ s.numThreadsRunningInRegion
  running_eq : exact → s.numThreadsRunningInRegion = countIf n (inRegion s.regionTicker) s.pc
  arriving : ∀ t old, t < n → s.pc t = .arriving old → old = s.regionTicker
  waiting : ∀ t old, t < n → s.pc t = .waiting old → old ≤ s.regionTicker

/-- Thread `t` releases the barrier: the others wait or are on their way out. -/
structure Closing (n : Nat) (exact : Prop) (s : BarrierState) (t : Nat) : Prop where
  lt : t < n
  closer : closes (s.pc t) = true
  others : ∀ u, u < n → u ≠ t →
    s.pc u = .waiting s.regionTicker ∨ s.pc u = .exited ∨ s.pc u = .absent ∨ s.pc u = .exiting
  calm : exact → s.pc t ≠ .selecting → ∀ u, u < n → s.pc u ≠ .exiting
  read : ∀ m, s.pc t = .releasing m → countIf n stays s.pc ≤ m ∧ (exact → m = s.numThreadsTotal)
  written : s.pc t = .publishing → countIf n stays s.pc ≤ s.numThreadsRunningInRegion ∧
    (exact → s.numThreadsRunningInRegion = s.numThreadsTotal)
  nobody : s.pc t ≠ .publishing → s.numThreadsRunningInRegion = 0

/-- `NumThreadsTotal` is right, whoever reads it when. -/
def TotalRight (n : Nat) (s : BarrierState) : Prop := s.numThreadsTotal = countIf n inTotal s.pc

def Inv (n : Nat) (exact : Prop) (s : BarrierState) : Prop :=
  Open n exact s ∨ ∃ t, Closing n exact s t

/-- Somebody who is counted is still to come when a thread waits. -/
def Awaited (n : Nat) (s : BarrierState) : Prop :=
  (∀ t, t < n → closes (s.pc t) = false) →
    ∀ t, t < n → s.pc t = .waiting s.regionTicker → 0 < s.numThreadsRunningInRegion

variable {n t : Nat} {x : Prop} {s : BarrierState} {l : BarrierLabel}

/-- What a step does, with its guards. -/
inductive Step (n : Nat) (s : BarrierState) : BarrierLabel → BarrierState → Prop
  | arrive {t : Nat} : t < n → s.pc t = .run →
    Step n s (.arrive t) (s.setPc t (.arriving s.regionTicker))
  | enter {t old : Nat} : t < n → s.pc t = .arriving old →
    Step n s (.enter t)
      ({ s with numThreadsRunningInRegion := s.numThreadsRunningInRegion - 1 }.setPc t
        (if s.numThreadsRunningInRegion - 1 = 0 then .selecting else .waiting old))
  | wake {t old : Nat} : t < n → s.pc t = .waiting old → s.regionTicker ≠ old →
    Step n s (.wake t) (s.setPc t .run)
  | readTotal {t : Nat} : t < n → s.pc t = .selecting →
    Step n s (.readTotal t) (s.setPc t (.releasing s.numThreadsTotal))
  | writeRunning {t : Nat} {m : Int} : t < n → s.pc t = .releasing m →
    Step n s (.writeRunning t) ({ s with numThreadsRunningInRegion := m }.setPc t .publishing)
  | tick {t : Nat} : t < n → s.pc t = .publishing →
    Step n s (.tick t) ({ s with regionTicker := s.regionTicker + 1 }.setPc t .run)
  | create {t child : Nat} : t < n → child < n → s.pc t = .run → s.pc child = .absent →
    Step n s (.create t child)
      (({ s with numThreadsRunningInRegion := s.numThreadsRunningInRegion + 1 }.setPc t
        (.creating child)).setPc child .born)
  | createTotal {t child : Nat} : t < n → child < n → s.pc t = .creating child →
    s.pc child = .born →
    Step n s (.createTotal t)
      ({ s with numThreadsTotal := s.numThreadsTotal + 1 }.setPc child .counted)
  | spawn {t child : Nat} : t < n → child < n → s.pc t = .creating child →
    s.pc child = .counted →
    Step n s (.spawn t) ((s.setPc child .run).setPc t .run)
  | exitRunning {t : Nat} : t < n → s.pc t = .run →
    Step n s (.exitRunning t)
      ({ s with numThreadsRunningInRegion := s.numThreadsRunningInRegion - 1 }.setPc t .exiting)
  | exitTotal {t : Nat} : t < n → s.pc t = .exiting →
    Step n s (.exitTotal t)
      ({ s with numThreadsTotal := s.numThreadsTotal - 1 }.setPc t .exited)
  | leave {t : Nat} : t < n → s.pc t = .exited →
    Step n s (.leave t) (s.setPc t .absent)

lemma step_cases (h : step n s l = some s') : Step n s l s' := by
  cases l <;> simp only [step] at h <;> (try split at h) <;>
    simp only [Option.ite_none_right_eq_some, Option.some.injEq, reduceCtorEq] at h <;>
    obtain ⟨hg, rfl⟩ := h
  all_goals first | exact .wake hg.1 ‹_› hg.2 | (constructor <;> simp_all)

variable {q : BarrierPc} {u : Nat} {r : Int}

lemma TotalRight.move (h : TotalRight n s) (ht : t < n)
    (hm : m + (inTotal (s.pc t)).toNat = s.numThreadsTotal + (inTotal q).toNat) :
    TotalRight n ⟨r, m, k, update s.pc t q⟩ := by
  have htot := countIf_update (p := inTotal) (f := s.pc) ht q
  unfold TotalRight at h ⊢
  dsimp only
  omega

lemma total_step (hi : TotalRight n s) (h : step n s l = some s') : TotalRight n s' := by
  cases step_cases h with
  | @create t child ht hc hpc hchild =>
    have h1 := hi.move (r := 0) (k := 0) ht (q := .creating child)
      (by rw [hpc]; rfl)
    refine h1.move hc ?_
    dsimp only
    rw [update_of_ne, hchild]
    · rfl
    · rintro rfl
      rw [hpc] at hchild
      cases hchild
  | spawn ht hc hpc hchild =>
    have h1 := hi.move (r := 0) (k := 0) hc (q := .run)
      (by rw [hchild]; rfl)
    refine h1.move ht ?_
    dsimp only
    rw [update_of_ne, hpc]
    · rfl
    · rintro rfl
      rw [hpc] at hchild
      cases hchild
  | createTotal _ hc _ hchild => exact hi.move hc (by rw [hchild]; simp [inTotal])
  | exitTotal ht hpc => exact hi.move ht (by rw [hpc]; simp [inTotal])
  | enter ht hpc =>
    refine hi.move ht ?_
    rw [hpc]
    split <;> rfl
  | arrive ht hpc | wake ht hpc | readTotal ht hpc | writeRunning ht hpc | tick ht hpc
  | exitRunning ht hpc | leave ht hpc => exact hi.move ht (by rw [hpc]; rfl)

section
variable (h : Open n x s) (ht : t < n)
include h ht

lemma Open.move (hq : closes q = false) (hr : r + (inRegion s.regionTicker (s.pc t)).toNat =
      s.numThreadsRunningInRegion + (inRegion s.regionTicker q).toNat)
    (harr : ∀ old, q = .arriving old → old = s.regionTicker)
    (hwait : ∀ old, q = .waiting old → old ≤ s.regionTicker) :
    Open n x ⟨r, m, s.regionTicker, update s.pc t q⟩ := by
  have hrun := countIf_update (p := inRegion s.regionTicker) (f := s.pc) ht q
  have h1 := h.running
  refine ⟨fun u hu => ?_, ?_, fun hx => ?_, fun u old hu hold => ?_, fun u old hu hold => ?_⟩
  · show closes (update s.pc t q u) = false
    rw [update_apply]
    split
    · exact hq
    · exact h.noCloser u hu
  · show (countIf n (inRegion s.regionTicker) (update s.pc t q) : Int) ≤ r
    omega
  · have h2 := h.running_eq hx
    show r = countIf n (inRegion s.regionTicker) (update s.pc t q)
    omega
  · rcases update_cases hold with ⟨-, hold⟩ | ⟨-, hold⟩
    · exact harr old hold
    · exact h.arriving u old hu hold
  · rcases update_cases hold with ⟨-, hold⟩ | ⟨-, hold⟩
    · exact hwait old hold
    · exact h.waiting u old hu hold

lemma Open.not_closes (hpc : s.pc t = q) (hq : closes q = true) : False := by
  have := h.noCloser t ht
  rw [hpc, hq] at this
  cases this

lemma Open.running_pos (hin : inRegion s.regionTicker (s.pc t) = true) :
    0 < s.numThreadsRunningInRegion := by
  have := countIf_pos.2 ⟨t, ht, hin⟩
  have h1 := h.running
  omega

lemma Open.others_of_one (hin : inRegion s.regionTicker (s.pc t) = true)
    (h1 : s.numThreadsRunningInRegion = 1) (hu : u < n) (hut : u ≠ t) :
    s.pc u = .waiting s.regionTicker ∨ s.pc u = .exited ∨ s.pc u = .absent ∨ s.pc u = .exiting := by
  have hout : inRegion s.regionTicker (s.pc u) = false := by
    -- without `t` the count is 0
    have hupd := countIf_update (p := inRegion s.regionTicker) (f := s.pc) ht .absent
    have hrun := h.running
    rw [hin] at hupd
    simp only [inRegion, Bool.toNat_true, Bool.toNat_false] at hupd
    have hzero := countIf_eq_zero.1 (show countIf n (inRegion s.regionTicker)
      (update s.pc t .absent) = 0 by omega) u hu
    rwa [update_of_ne hut] at hzero
  have hno := h.noCloser u hu
  cases hpc : s.pc u <;> simp_all [inRegion, closes]

lemma Open.enter {old : Nat} (hpc : s.pc t = .arriving old) :
    Inv n x ({ s with numThreadsRunningInRegion := s.numThreadsRunningInRegion - 1 }.setPc t
      (if s.numThreadsRunningInRegion - 1 = 0 then .selecting else .waiting old)) := by
  have hold := h.arriving t old ht hpc
  subst hold
  have hin : inRegion s.regionTicker (s.pc t) = true := by rw [hpc]; rfl
  by_cases h0 : s.numThreadsRunningInRegion - 1 = 0
  · rw [if_pos h0]
    refine .inr ⟨t, ht, ?_, fun u hu hut => ?_, fun _ hp => ?_, fun m hm => ?_, fun hp => ?_,
      fun _ => h0⟩
    · simp [setPc, closes]
    · simp only [setPc, update_of_ne hut]
      exact h.others_of_one ht hin (by omega) hu hut
    · simp [setPc] at hp
    · simp [setPc] at hm
    · simp [setPc] at hp
  · rw [if_neg h0]
    refine .inl (h.move ht rfl ?_ (by simp) (by simp))
    rw [hpc]
    simp [inRegion]

lemma Open.create (hc : child < n) (hpc : s.pc t = .run) (hchild : s.pc child = .absent) :
    Open n x (({ s with numThreadsRunningInRegion := s.numThreadsRunningInRegion + 1 }.setPc t
      (.creating child)).setPc child .born) := by
  have h1 := h.move ht (q := .creating child)
    (m := s.numThreadsTotal) rfl (by rw [hpc]; rfl) (by simp) (by simp)
  refine h1.move hc rfl ?_ (by simp) (by simp)
  dsimp only
  rw [update_of_ne, hchild]
  · simp [setPc, inRegion]
  · rintro rfl
    rw [hpc] at hchild
    cases hchild

lemma Open.spawn (hc : child < n) (hpc : s.pc t = .creating child)
    (hchild : s.pc child = .counted) : Open n x ((s.setPc child .run).setPc t .run) := by
  have h1 := h.move hc (q := .run) (m := s.numThreadsTotal)
    rfl (by rw [hchild]; rfl) (by simp) (by simp)
  refine h1.move ht rfl ?_ (by simp) (by simp)
  dsimp only
  rw [update_of_ne, hpc]
  · rfl
  · rintro rfl
    rw [hpc] at hchild
    cases hchild

end

/-! ## While the barrier is released -/

section
variable (h : Closing n x s t) (hu : u < n) (hq : s.pc u = q)
  (hne : ¬ (q = .waiting s.regionTicker ∨ q = .exited ∨ q = .absent ∨ q = .exiting))
include h hu hq hne

lemma Closing.eq_of_pc : u = t := by
  by_contra hut
  exact hne (hq ▸ h.others u hu hut)

lemma Closing.elim (hc : closes q = false) : False := by
  have hcl := h.closer
  rw [← h.eq_of_pc hu hq hne, hq, hc] at hcl
  cases hcl

end

lemma Closing.next (h : Closing n x s t) (hq : closes q = true)
    (hcalm : x → ∀ u, u < n → s.pc u ≠ .exiting)
    (hread : ∀ m, q = .releasing m → countIf n stays s.pc ≤ m ∧ (x → m = s.numThreadsTotal))
    (hwritten : q = .publishing → countIf n stays s.pc ≤ r ∧ (x → r = s.numThreadsTotal))
    (hnobody : q ≠ .publishing → r = 0) :
    Closing n x ⟨r, s.numThreadsTotal, s.regionTicker, update s.pc t q⟩ t := by
  have hcount : countIf n stays (update s.pc t q) = countIf n stays s.pc := by
    have hcl := h.closer
    apply countIf_update_same
    cases q <;> cases hpc : s.pc t <;> simp_all [closes, stays, inTotal]
  have hself : update s.pc t q t = q := update_self _ _ _
  refine ⟨h.lt, ?_, fun u hu hut => ?_, fun hx _ u hu => ?_, ?_, ?_, ?_⟩
  · simpa only [hself] using hq
  · simp only [update_of_ne hut]
    exact h.others u hu hut
  · show update s.pc t q u ≠ .exiting
    rw [update_apply]
    split
    · rintro rfl
      cases hq
    · exact hcalm hx u hu
  · simpa only [hself, hcount] using hread
  · simpa only [hself, hcount] using hwritten
  · simpa only [hself] using hnobody

lemma stays_le_total (h : TotalRight n s) : countIf n stays s.pc ≤ s.numThreadsTotal := by
  rw [h]
  exact_mod_cast countIf_mono fun u _ => by cases s.pc u <;> simp [stays, inTotal]

lemma Closing.tick (h : Closing n x s t) (hpc : s.pc t = .publishing) (htot : TotalRight n s) :
    Open n x ({ s with regionTicker := s.regionTicker + 1 }.setPc t .run) := by
  have hpcs {u : Nat} {q : BarrierPc} (hu : u < n) (hq : update s.pc t .run u = q) :
      u = t ∧ q = .run ∨ u ≠ t ∧
        (q = .waiting s.regionTicker ∨ q = .exited ∨ q = .absent ∨ q = .exiting) := by
    rcases update_cases hq with ⟨hut, hq⟩ | ⟨hut, hq⟩
    · exact .inl ⟨hut, hq.symm⟩
    · exact .inr ⟨hut, hq ▸ h.others u hu hut⟩
  have hsame : countIf n (inRegion (s.regionTicker + 1)) (update s.pc t .run) =
      countIf n stays s.pc := by
    refine countIf_congr fun u hu => ?_
    by_cases hut : u = t
    · rw [hut, update_self, hpc]
      rfl
    · rw [update_of_ne hut]
      rcases h.others u hu hut with h' | h' | h' | h' <;> rw [h'] <;> simp [inRegion, stays, inTotal]
  obtain ⟨hle, heq⟩ := h.written hpc
  refine ⟨fun u hu => ?_, ?_, fun hx => ?_, fun u old hu hold => ?_, fun u old hu hold => ?_⟩
  · show closes (update s.pc t .run u) = false
    rcases hpcs hu rfl with ⟨-, h'⟩ | ⟨-, h' | h' | h' | h'⟩ <;> rw [h'] <;> rfl
  · show (countIf n (inRegion (s.regionTicker + 1)) (update s.pc t .run) : Int) ≤ _
    rw [hsame]
    exact hle
  · show s.numThreadsRunningInRegion = countIf n (inRegion (s.regionTicker + 1)) (update s.pc t .run)
    rw [hsame, heq hx, htot]
    refine congrArg _ (countIf_congr fun u hu => ?_)
    have := h.calm hx (by simp [hpc]) u hu
    cases hu : s.pc u <;> simp_all [stays]
  · rcases hpcs hu hold with ⟨-, h'⟩ | ⟨-, h' | h' | h' | h'⟩ <;> cases h'
  · rcases hpcs hu hold with ⟨-, h'⟩ | ⟨-, h' | h' | h' | h'⟩ <;> cases h'
    exact Nat.le_succ _

lemma Closing.moveOther (h : Closing n x s t)
    (hu : s.pc u = .exiting ∧ q = .exited ∨ s.pc u = .exited ∧ q = .absent)
    (hm : x → m = s.numThreadsTotal ∨ s.pc t = .selecting) :
    Closing n x ⟨s.numThreadsRunningInRegion, m, s.regionTicker, update s.pc u q⟩ t := by
  have hut : t ≠ u := by
    rintro rfl
    have hcl := h.closer
    rcases hu with ⟨hu, -⟩ | ⟨hu, -⟩ <;> rw [hu] at hcl <;> cases hcl
  have hcount : countIf n stays (update s.pc u q) = countIf n stays s.pc := by
    apply countIf_update_same
    rcases hu with ⟨hu, rfl⟩ | ⟨hu, rfl⟩ <;> rw [hu] <;> rfl
  have hself : update s.pc u q t = s.pc t := update_of_ne hut _ _
  refine ⟨h.lt, ?_, fun v hv hvt => ?_, fun hx hsel v hv => ?_, fun k hk => ?_, fun hp => ?_, ?_⟩
  · simpa only [hself] using h.closer
  · simp only [update_apply]
    split
    · rcases hu with ⟨-, rfl⟩ | ⟨-, rfl⟩ <;> simp
    · exact h.others v hv hvt
  · have := h.calm hx (hself ▸ hsel) v hv
    simp only [update_apply]
    split
    · rcases hu with ⟨-, rfl⟩ | ⟨-, rfl⟩ <;> simp
    · exact this
  · simp only [hself] at hk
    obtain ⟨hle, heq⟩ := h.read k hk
    refine ⟨hcount.symm ▸ hle, fun hx => ?_⟩
    rw [heq hx, (hm hx).resolve_right (by simp [hk])]
  · simp only [hself] at hp
    obtain ⟨hle, heq⟩ := h.written hp
    refine ⟨hcount.symm ▸ hle, fun hx => ?_⟩
    rw [heq hx, (hm hx).resolve_right (by simp [hp])]
  · simpa only [hself] using h.nobody

/-! ## Runs -/

lemma init_pc : init.pc = update (fun _ => BarrierPc.absent) 0 .run := by
  funext t
  by_cases ht : t = 0
  · rw [ht, update_self]
    rfl
  · rw [update_of_ne ht]
    exact if_neg ht

lemma countIf_init (hn : 0 < n) (ha : p .absent = false)
    (hr : p .run = true) : countIf n p init.pc = 1 := by
  have h0 : countIf n p (fun _ => .absent) = 0 := countIf_eq_zero.2 fun _ _ => ha
  have hu := countIf_update (p := p) (f := fun _ => .absent) hn .run
  rw [← init_pc, ha, hr, h0] at hu
  exact hu

lemma init_pc_cases (t : Nat) : init.pc t = .run ∨ init.pc t = .absent := by
  unfold init
  dsimp only
  split
  · exact .inl rfl
  · exact .inr rfl

lemma total_init (hn : 0 < n) : TotalRight n init := by
  rw [TotalRight, countIf_init hn rfl rfl]
  rfl

lemma inv_init (hn : 0 < n) : Inv n x init := by
  have hcount : countIf n (inRegion 0) init.pc = 1 := countIf_init hn rfl rfl
  refine .inl ⟨fun t _ => ?_, ?_, fun _ => ?_, fun t old _ h => ?_, fun t old _ h => ?_⟩
  · rcases init_pc_cases t with h | h <;> rw [h] <;> rfl
  · show (countIf n (inRegion 0) init.pc : Int) ≤ 1
    omega
  · show (1 : Int) = countIf n (inRegion 0) init.pc
    omega
  · rcases init_pc_cases t with h' | h' <;> rw [h'] at h <;> cases h
  · rcases init_pc_cases t with h' | h' <;> rw [h'] at h <;> cases h

lemma inv_step_closing {c : Nat} (hi : Closing n x s c) (htot : TotalRight n s)
    (hok : x → TotalOk n s l) (h : step n s l = some s') :
    (∃ t, Closing n x s' t) ∨
      (s.pc c = .publishing ∧ s' = { s with regionTicker := s.regionTicker + 1 }.setPc c .run) := by
  cases step_cases h with
  | wake ht hpc hne =>
    exact (hi.elim ht hpc (by simpa using Ne.symm hne) rfl).elim
  | arrive ht hpc | enter ht hpc | create ht _ hpc | createTotal ht _ hpc | spawn ht _ hpc
  | exitRunning ht hpc => exact (hi.elim ht hpc (by simp) rfl).elim
  | leave _ hpc => exact .inl ⟨c, hi.moveOther (.inr ⟨hpc, rfl⟩) fun _ => .inl rfl⟩
  | exitTotal ht hpc =>
    refine .inl ⟨c, hi.moveOther (.inl ⟨hpc, rfl⟩) fun hx => .inr ?_⟩
    by_contra hsel
    exact hi.calm hx hsel _ ht hpc
  | readTotal ht hpc =>
    obtain rfl := hi.eq_of_pc ht hpc (by simp)
    refine .inl ⟨_, hi.next rfl hok (fun m hm => ?_) (by simp) fun _ => hi.nobody (by simp [hpc])⟩
    cases hm
    exact ⟨stays_le_total htot, fun _ => rfl⟩
  | writeRunning ht hpc =>
    obtain rfl := hi.eq_of_pc ht hpc (by simp)
    exact .inl ⟨_, hi.next rfl (fun hx => hi.calm hx (by simp [hpc])) (by simp)
      (fun _ => hi.read _ hpc) (by simp)⟩
  | tick ht hpc =>
    obtain rfl := hi.eq_of_pc ht hpc (by simp)
    exact .inr ⟨hpc, rfl⟩

lemma inv_step (hi : Inv n x s) (htot : TotalRight n s) (hok : x → TotalOk n s l)
    (h : step n s l = some s') : Inv n x s' := by
  rcases hi with hi | ⟨c, hi⟩
  · -- nobody releases: every step but the last arrival leaves it so
    cases step_cases h with
    | enter ht hpc => exact hi.enter ht hpc
    | create ht hc hpc hchild => exact .inl (hi.create ht hc hpc hchild)
    | spawn ht hc hpc hchild => exact .inl (hi.spawn ht hc hpc hchild)
    | wake ht hpc hne =>
      have hin : inRegion s.regionTicker (.waiting _) = true := bne_iff_ne.2 (Ne.symm hne)
      exact .inl (hi.move ht rfl (by rw [hpc, hin]; rfl) (by simp) (by simp))
    | arrive ht hpc | createTotal _ ht _ hpc | exitTotal ht hpc | leave ht hpc =>
      exact .inl (hi.move ht rfl (by rw [hpc]; rfl) (by simp) (by simp))
    | exitRunning ht hpc =>
      exact .inl (hi.move ht rfl (by simp [hpc, inRegion]) (by simp) (by simp))
    | readTotal ht hpc | writeRunning ht hpc | tick ht hpc => exact (hi.not_closes ht hpc rfl).elim
  · rcases inv_step_closing hi htot hok h with hc | ⟨hpc, rfl⟩
    · exact .inr hc
    · exact .inl (hi.tick hpc htot)

lemma ExitOk.total (h : ExitOk n s l) : TotalOk n s l := by
  cases l with
  | readTotal t => exact h
  | _ => trivial

lemma waiting_of_update {f : Nat → BarrierPc} (hq : q ≠ .waiting k)
    (h : update f t q u = .waiting k) : f u = .waiting k := by
  rcases update_cases h with ⟨-, h⟩ | ⟨-, h⟩
  · exact absurd h hq
  · exact h

lemma Awaited.mono (ha : Awaited n s) (hi : Open n x s)
    (hw : ∀ u, s'.pc u = .waiting s'.regionTicker → s.pc u = .waiting s.regionTicker)
    (hr : s.numThreadsRunningInRegion ≤ s'.numThreadsRunningInRegion) : Awaited n s' :=
  fun _ u hu h => lt_of_lt_of_le (ha hi.noCloser u hu (hw u h)) hr

lemma awaited_init : Awaited n init := by
  intro _ t _ h
  rcases init_pc_cases t with h' | h' <;> rw [h'] at h <;> cases h

lemma awaited_step (hi : Inv n x s) (htot : TotalRight n s) (ha : Awaited n s)
    (hok : ExitOk n s l) (h : step n s l = some s') : Awaited n s' := by
  rcases hi with hi | ⟨c, hi⟩
  · cases step_cases h with
    | enter ht hpc =>
      intro hi' u hu _
      by_cases h0 : s.numThreadsRunningInRegion - 1 = 0
      · have := hi' _ ht
        simp [setPc, h0, closes] at this
      have := hi.running_pos ht (by rw [hpc]; rfl)
      show 0 < s.numThreadsRunningInRegion - 1
      omega
    | exitRunning ht hpc =>
      intro _ u hu hw
      have hw' := waiting_of_update (by simp) hw
      -- somebody waits, so this is not the last running thread
      have hne : s.numThreadsRunningInRegion ≠ 1 := fun h1 => hok h1 u hu hw'
      have := ha hi.noCloser u hu hw'
      show 0 < s.numThreadsRunningInRegion - 1
      omega
    | create | spawn =>
      refine ha.mono hi (fun u hw => ?_) (by simp [setPc])
      exact waiting_of_update (by simp) (waiting_of_update (by simp) hw)
    | arrive | wake | createTotal | exitTotal | leave =>
      exact ha.mono hi (fun u hw => waiting_of_update (by simp) hw) le_rfl
    | readTotal ht hpc | writeRunning ht hpc | tick ht hpc => exact (hi.not_closes ht hpc rfl).elim
  · -- only the move of the ticker ends it, and nobody waits for the next one yet
    intro hi' u hu hw
    rcases inv_step_closing hi htot (fun _ => hok.total) h with ⟨c', hc'⟩ | ⟨hpc, rfl⟩
    · have := hc'.closer
      rw [hi' c' hc'.lt] at this
      cases this
    have hw' := waiting_of_update (by simp) hw
    have huc : u ≠ c := by
      rintro rfl
      rw [hpc] at hw'
      cases hw'
    rcases hi.others u hu huc with h' | h' | h' | h' <;> rw [h'] at hw' <;> simp [setPc] at hw'

/-- A thread that is not started has somebody who creates it. -/
def Created (n : Nat) (s : BarrierState) : Prop :=
  ∀ c, c < n → s.pc c = .born ∨ s.pc c = .counted → ∃ t, t < n ∧ s.pc t = .creating c

lemma created_init : Created n init := by
  intro c _ h
  rcases init_pc_cases c with h' | h' <;> rw [h'] at h <;> simp at h

lemma created_step (hi : Created n s) (h : step n s l = some s') : Created n s' := by
  intro c hcn hc
  -- the creator of `c`, if `c` was there before the step
  have hold := hi c hcn
  cases step_cases h <;> simp only [setPc, update_apply] at hc ⊢ <;> grind

lemma Open.exists_counted (h : Open n x s) (hx : x) (hcr : Created n s)
    (hpos : 0 < s.numThreadsRunningInRegion) :
    ∃ t, t < n ∧ s.Alive t ∧ s.pc t ≠ .waiting s.regionTicker := by
  have hrun := h.running_eq hx
  obtain ⟨u, hu, hin⟩ := countIf_pos.1 (show 0 < countIf n (inRegion s.regionTicker) s.pc by omega)
  by_cases hborn : s.pc u = .born ∨ s.pc u = .counted
  · obtain ⟨t, ht, hpc⟩ := hcr u hu hborn
    exact ⟨t, ht, by simp [Alive, hpc], by simp [hpc]⟩
  rw [not_or] at hborn
  refine ⟨u, hu, ⟨?_, hborn⟩, ?_⟩
  · intro hpc
    rw [hpc] at hin
    cases hin
  · intro hpc
    rw [hpc] at hin
    simp [inRegion] at hin

lemma Inv.not_stranded (hi : Inv n x s) (hx : x) (ha : Awaited n s) (hcr : Created n s) :
    ¬ Stranded n s := by
  rintro ⟨⟨t, ht, halive⟩, hall⟩
  rcases hi with hi | ⟨c, hi⟩
  · obtain ⟨u, hu, halive', hne⟩ :=
      hi.exists_counted hx hcr (ha hi.noCloser t ht (hall t ht halive))
    exact hne (hall u hu halive')
  have hcl := hi.closer
  have hw := hall c hi.lt (by
    refine ⟨fun h => ?_, fun h => ?_, fun h => ?_⟩ <;> rw [h] at hcl <;> cases hcl)
  rw [hw] at hcl
  cases hcl

/-- Runs whose exits keep the condition strand nobody. -/
theorem not_stranded_of_meets (hn : 0 < n) (h : Machine.ReachesBy (step n) (ExitOk n) init s) :
    ¬ Stranded n s := by
  obtain ⟨ls, hrun, hmeets⟩ := h
  obtain ⟨-, hi, ha, hcr⟩ := Machine.inv_of_meets (step n)
    (I := fun s => TotalRight n s ∧ Inv n True s ∧ Awaited n s ∧ Created n s)
    (fun _ _ _ ⟨htot, hi, ha, hcr⟩ hok hstep =>
      ⟨total_step htot hstep, inv_step hi htot (fun _ => hok.total) hstep,
        awaited_step hi htot ha hok hstep, created_step hcr hstep⟩)
    ⟨total_init hn, inv_init hn, awaited_init, created_init⟩ hmeets hrun
  exact hi.not_stranded trivial ha hcr

/-- Two threads meet at the end of a region, one exits in the next. -/
theorem not_stranded_two_threads :
    ∃ s, Machine.ReachesBy (step 2) (ExitOk 2) init s ∧ s.regionTicker = 1 ∧
      s.numThreadsTotal = 1 ∧ ¬ Stranded 2 s :=
  have h : Machine.ReachesBy (step 2) (ExitOk 2) init _ :=
    ⟨[.create 0 1, .createTotal 0, .spawn 0, .arrive 0, .enter 0, .arrive 1, .enter 1,
      .readTotal 1, .writeRunning 1, .tick 1, .wake 0, .exitRunning 1, .exitTotal 1, .leave 1],
      rfl, by decide⟩
  ⟨_, h, rfl, rfl, not_stranded_of_meets (by decide) h⟩

/-- Thread 0 waits when thread 1, the last to run, exits. -/
theorem stranded_by_exit : ∃ s, Machine.Reaches (step 2) init s ∧ Stranded 2 s :=
  ⟨_, ⟨[.create 0 1, .createTotal 0, .spawn 0, .arrive 0, .enter 0, .exitRunning 1, .exitTotal 1,
    .leave 1], rfl⟩, by decide⟩

/-- Thread 0 sets up the next region between the two decrements of thread 1: it then waits for
two. -/
lemma stranded_by_late_exit :
    ∃ s, Machine.Reaches (step 2) init s ∧ Stranded 2 s ∧ s.numThreadsRunningInRegion = 1 :=
  ⟨_, ⟨[.create 0 1, .createTotal 0, .spawn 0, .exitRunning 1, .arrive 0, .enter 0, .readTotal 0,
    .exitTotal 1, .leave 1, .writeRunning 0, .tick 0, .arrive 0, .enter 0], rfl⟩, by decide, rfl⟩

/-! ## The count of running threads -/

lemma Open.count_eq (h : Open n x s) (hx : x) (hq : Quiet n s) :
    s.numThreadsRunningInRegion = numNotArrived n s := by
  have hrel : ((List.range n).any fun t => s.pc t = .publishing) = false := by
    simp only [any_eq_false, mem_range, decide_eq_true_eq]
    exact fun t ht hpc => h.not_closes ht hpc rfl
  rw [h.running_eq hx, numNotArrived, hrel]
  refine congrArg _ (countIf_congr fun u hu => ?_)
  have hno := h.noCloser u hu
  cases hpc : s.pc u with
  | born => exact absurd hpc (hq u hu).1
  | selecting | releasing _ | publishing => rw [hpc] at hno; cases hno
  | _ => rfl

lemma Closing.count_eq (h : Closing n x s t) (hx : x) (htot : TotalRight n s) (hq : Quiet n s) :
    s.numThreadsRunningInRegion = numNotArrived n s := by
  have hcl := h.closer
  by_cases hpc : s.pc t = .publishing
  · -- the count is set back to the total
    have hrel : ((List.range n).any fun t => s.pc t = .publishing) = true := by
      simp only [any_eq_true, mem_range, decide_eq_true_eq]
      exact ⟨t, h.lt, hpc⟩
    rw [(h.written hpc).2 hx, htot, numNotArrived, hrel]
    refine congrArg _ (countIf_congr fun u hu => ?_)
    by_cases hut : u = t
    · rw [hut, hpc]
      rfl
    rcases h.others u hu hut with h' | h' | h' | h'
    · rw [h']; rfl
    · rw [h']; rfl
    · rw [h']; rfl
    · exact absurd h' (hq u hu).2
  rw [h.nobody hpc, numNotArrived, countIf_eq_zero.2]
  · rfl
  intro u hu
  have hrel : ((List.range n).any fun t => s.pc t = .publishing) = false := by
    simp only [any_eq_false, mem_range, decide_eq_true_eq]
    intro v hv hvp
    exact hpc (h.eq_of_pc hv hvp (by simp) ▸ hvp)
  rw [hrel]
  by_cases hut : u = t
  · cases hpc' : s.pc t <;> simp_all [closes, notArrived]
  rcases h.others u hu hut with h' | h' | h' | h'
  · simp [h', notArrived]
  · rw [h']; rfl
  · rw [h']; rfl
  · exact absurd h' (hq u hu).2

/-- As long as no release reads the total between the two decrements of an exit, the count is
right whenever nobody is between two updates. -/
theorem running_eq_of_meets (hn : 0 < n) (h : Machine.ReachesBy (step n) (TotalOk n) init s)
    (hq : Quiet n s) : s.numThreadsRunningInRegion = numNotArrived n s := by
  obtain ⟨ls, hrun, hmeets⟩ := h
  obtain ⟨htot, hi | ⟨t, hi⟩⟩ := Machine.inv_of_meets (step n)
    (I := fun s => TotalRight n s ∧ Inv n True s)
    (fun _ _ _ ⟨htot, hi⟩ hok hstep =>
      ⟨total_step htot hstep, inv_step hi htot (fun _ => hok) hstep⟩)
    ⟨total_init hn, inv_init hn⟩ hmeets hrun
  · exact hi.count_eq trivial hq
  · exact hi.count_eq trivial htot hq

/-- Thread 1 has arrived, thread 0 is still running. -/
theorem running_eq_two_threads :
    ∃ s, Machine.ReachesBy (step 2) (TotalOk 2) init s ∧ Quiet 2 s ∧
      s.numThreadsRunningInRegion = numNotArrived 2 s ∧ numNotArrived 2 s = 1 :=
  have h : Machine.ReachesBy (step 2) (TotalOk 2) init _ :=
    ⟨[.create 0 1, .createTotal 0, .spawn 0, .arrive 1, .enter 1], rfl, by decide⟩
  ⟨_, h, by decide, running_eq_of_meets (by decide) h (by decide), by decide⟩

/-- Thread 0 sets up the next region between the two decrements of thread 1: it then waits for
two, and is alone. -/
theorem late_exit_counted :
    ∃ s, Machine.Reaches (step 2) init s ∧ Quiet 2 s ∧ s.numThreadsRunningInRegion = 2 ∧
      numNotArrived 2 s = 1 :=
  ⟨_, ⟨[.create 0 1, .createTotal 0, .spawn 0, .exitRunning 1, .arrive 0, .enter 0, .readTotal 0,
    .exitTotal 1, .leave 1, .writeRunning 0, .tick 0], rfl⟩, by decide, rfl, by decide⟩

end BarrierState

end InputCovSched
