import InputCovSched.Klee.Independent
import InputCovSched.Lib.Machine
import Mathlib.Data.Finset.Basic

/-!
# The search over regions (`DepthFirstICS` in `SearchStrategy.cpp`)

Each path of a region is a fork of the region's root state; a path that ends is sliced, its
schedule goes to the region's record together with an edge to the next region, and its last state
becomes the root of that region if the region is new. What a region finds is staged until the
region is complete; a loop that turns out to need a marker restarts the region and drops the stage.

The engine's callbacks are the steps of the machine. A label holds what the search cannot decide
itself: the region in which a state stands, what slicing and the path manager make of a path, the
limits, which region of the frontier comes first, the identity of a forked state. A failed
assertion is `none`.
-/

namespace InputCovSched

open Machine Function List Option

/-- `nextRegion` is only set if the path neither exits nor deadlocks. -/
structure RegionPathEdge (R : Type) where
  traceId : Nat
  exits : Bool
  deadlocks : Bool
  nextRegion : Option R

/-- A region's record; `explored` and `frontier` are those of its path manager, the latter as the
number of inputs to be explored. -/
structure ParallelRegionInfo (R P : Type) where
  numericId : Nat
  regionEdges : List (RegionPathEdge R)
  explored : List P
  frontier : Nat

structure DepthFirstICS (R P : Type) where
  currRegion : R
  currRoot : Option Nat
  currQueue : List Nat
  regionsFrontier : List (R × Nat)
  regions : List R
  /-- The source only counts them. -/
  completedRegions : List R
  localRegionsFrontier : List (R × Nat)
  localRegions : List R
  nextRegionNumericId : Nat
  /-- Is there one? -/
  loopsToUpgrade : Bool
  info : R → ParallelRegionInfo R P
  live : Finset Nat
  processed : R → List (P × RegionPathEdge R)

/-- What comes of a path that is processed: its schedule, the number of inputs on the frontier
afterwards, whether slicing finds loops that need a marker, and the number of the trace. -/
structure ProcessedPath (P : Type) where
  schedule : P
  frontier : Nat
  upgrades : Bool
  traceId : Nat

def ProcessedPath.edge {R P : Type} (path : ProcessedPath P) (exits deadlocks : Bool) (id : R) :
    RegionPathEdge R :=
  ⟨path.traceId, exits, deadlocks, if exits = false ∧ deadlocks = false then some id else none⟩

/-- The circumstances of a job selection. `depthLimit`: the head of the queue has reached a limit,
in this region. -/
structure JobSelection (R P : Type) where
  depthLimit : Option (R × ProcessedPath P)
  maxPaths : Nat
  maxRegions : Nat
  next : R × Nat
  forked : Nat

inductive IcsEvent (R P : Type) where
  | onStateActivated (state : Nat)
  | onUpdateAfterBranch (state : Nat)
  | onStateDeactivated (state : Nat) (discarded deadlocks : Bool) (id : R) (path : ProcessedPath P)
  | onIcsBegin (state forked : Nat)
  /-- All threads have ended their region. -/
  | onIcsMaybeEndRegion (state : Nat) (id : R) (path : ProcessedPath P)
  | onNextJobSelection (sel : JobSelection R P)

namespace DepthFirstICS

variable {R P : Type} [DecidableEq R]

/-! ## Regions -/

def Registered (s : DepthFirstICS R P) (id : R) : Prop := id ∈ s.regions ∨ id ∈ s.localRegions

instance (s : DepthFirstICS R P) (id : R) : Decidable (s.Registered id) :=
  inferInstanceAs (Decidable (_ ∨ _))

/-- A region that is in `regions` shares its record; one that is nowhere gets a new one. -/
def addRegion (s : DepthFirstICS R P) (id : R) : DepthFirstICS R P :=
  { s with
    localRegions := if id ∈ s.localRegions then s.localRegions else s.localRegions ++ [id]
    info :=
      if s.Registered id then s.info
      else update s.info id ⟨s.nextRegionNumericId, [], [], 0⟩
    nextRegionNumericId :=
      if s.Registered id then s.nextRegionNumericId else s.nextRegionNumericId + 1
    processed := if s.Registered id then s.processed else update s.processed id [] }

def initial (init : R) : DepthFirstICS R P :=
  addRegion
    { currRegion := init
      currRoot := none
      currQueue := []
      regionsFrontier := []
      regions := []
      completedRegions := []
      localRegionsFrontier := []
      localRegions := []
      nextRegionNumericId := 1
      loopsToUpgrade := false
      info := fun _ => ⟨0, [], [], 0⟩
      live := ∅
      processed := fun _ => [] } init

section
variable (s : DepthFirstICS R P)

def modifyInfo (f : ParallelRegionInfo R P → ParallelRegionInfo R P) :
    DepthFirstICS R P :=
  { s with info := update s.info s.currRegion (f (s.info s.currRegion)) }

def addRegionEdge (nextId : R) (edge : RegionPathEdge R) :
    DepthFirstICS R P :=
  ((if edge.exits = false ∧ edge.deadlocks = false then s.addRegion nextId else s).addRegion
    s.currRegion).modifyInfo fun i => { i with regionEdges := i.regionEdges ++ [edge] }

/-- The loop over the local frontier compares with `begin()` and so discards no state. -/
def clearRegionStagingArea : DepthFirstICS R P :=
  { s with
    localRegions := []
    localRegionsFrontier := []
    nextRegionNumericId := s.regions.length + 1 }

def registered : List R :=
  s.regions ++ s.localRegions.filter fun id => id ∉ s.regions

/-- What was staged goes to the global tables. -/
def flushed : DepthFirstICS R P :=
  { s with
    regions := s.registered
    localRegions := []
    regionsFrontier := s.regionsFrontier ++ s.localRegionsFrontier
    localRegionsFrontier := [] }

def flushRegionStagingArea : Option (DepthFirstICS R P) :=
  if ∀ e ∈ s.localRegionsFrontier, ∀ e' ∈ s.regionsFrontier, e.1 ≠ e'.1 then some s.flushed
  else none

/-! ## States -/

/-- `Executor::discardState`, which calls back `onStateDeactivated`. -/
def discardState (state : Nat) : Option (DepthFirstICS R P) :=
  if s.currRoot = some state then none
  else some { s with currQueue := s.currQueue.erase state, live := s.live.erase state }

def clearQueue : Option (DepthFirstICS R P) :=
  s.currQueue.foldlM discardState s

def removeState (state : Nat) : Option (DepthFirstICS R P) :=
  if state ∈ s.currQueue then some { s with currQueue := s.currQueue.erase state } else none

/-- The new state is activated. -/
def forkNextPath (forked : Nat) : Option (DepthFirstICS R P) :=
  if s.currRoot ≠ none ∧ s.currQueue = [] ∧ forked ∉ s.live then
    some { s with currQueue := [forked], live := insert forked s.live }
  else none

/-! ## Paths -/

def recordPath (exits deadlocks : Bool) (id : R) (path : ProcessedPath P) :
    DepthFirstICS R P :=
  let s := { s with loopsToUpgrade := s.loopsToUpgrade || path.upgrades }
  let s := s.modifyInfo fun i =>
    { i with explored := i.explored ++ [path.schedule], frontier := path.frontier }
  let s := s.addRegionEdge id (path.edge exits deadlocks id)
  { s with
    processed := update s.processed s.currRegion
      (s.processed s.currRegion ++ [(path.schedule, path.edge exits deadlocks id)]) }

/-- All other branches of the path are discarded. -/
def processPath (state : Nat) (exits deadlocks : Bool) (id : R)
    (path : ProcessedPath P) : Option (DepthFirstICS R P) := do
  let s ← (s.recordPath exits deadlocks id path).removeState state
  s.clearQueue

/-! ## Callbacks -/

/-- The first state of all becomes the root. -/
def onStateActivated (state : Nat) : Option (DepthFirstICS R P) :=
  if state ∈ s.live then none
  else if s.currRoot = none then
    if s.currQueue = [] ∧ s.regions = [] ∧ s.localRegions.length = 1 ∧ s.regionsFrontier = [] ∧
        s.localRegionsFrontier = [] ∧ (s.info s.currRegion).explored = [] then
      some { s with currRoot := some state, currQueue := [state], live := insert state s.live }
    else none
  else some { s with currQueue := state :: s.currQueue, live := insert state s.live }

/-- The state is cheaper than the head of the queue: the two change places. -/
def onUpdateAfterBranch (state : Nat) : Option (DepthFirstICS R P) :=
  match s.currQueue with
  | [] => none
  | hd :: tl =>
    if state ∈ tl then
      some { s with currQueue := state :: tl.map fun x => if x = state then hd else x }
    else none

def onStateDeactivated (state : Nat) (discarded deadlocks : Bool) (id : R)
    (path : ProcessedPath P) : Option (DepthFirstICS R P) :=
  if discarded then s.discardState state
  else if s.currRoot = some state then none
  else do
    let s ← s.processPath state true deadlocks id path
    some { s with live := s.live.erase state }

/-- "We may have forked multiple paths before klee_ics_begin()": only in the initial region. -/
def clearForks (isInitialRegion : Bool) : Option (DepthFirstICS R P) :=
  if s.currQueue = [] then some s else if isInitialRegion then s.clearQueue else none

def onIcsBegin (state forked : Nat) : Option (DepthFirstICS R P) :=
  let isInitialRegion := s.regions.length + s.localRegions.length == 1
  if s.currRoot = some state ∧ s.currQueue.head? = some state ∧
      (s.info s.currRegion).frontier = 0 ∧ (s.info s.currRegion).explored = [] then do
    let s ← s.removeState state
    let s ← s.clearForks isInitialRegion
    s.forkNextPath forked
  else none

def onIcsMaybeEndRegion (state : Nat) (id : R) (path : ProcessedPath P) :
    Option (DepthFirstICS R P) :=
  if s.currQueue.head? = some state then do
    -- looked up before the path registers the region
    let isNew := ¬ s.Registered id
    let s ← s.processPath state false false id path
    if isNew then
      if (∀ e ∈ s.regionsFrontier, e.1 ≠ id) ∧ ∀ e ∈ s.localRegionsFrontier, e.1 ≠ id then
        some { s with localRegionsFrontier := s.localRegionsFrontier ++ [(id, state)] }
      else none
    else s.discardState state
  else none

/-! ## Job selection -/

/-- "Ending path early" -/
def limitDepth (depthLimit : Option (R × ProcessedPath P)) :
    Option (DepthFirstICS R P) :=
  match depthLimit, s.currQueue with
  | some (id, path), state :: _ => do
    let s ← s.processPath state false false id path
    let s ← s.discardState state
    s.clearQueue
  | _, _ => some s

/-- "Ending region early" -/
def limitPaths (maxPaths : Nat) : Option (DepthFirstICS R P) :=
  if 0 < maxPaths ∧ (s.info s.currRegion).explored.length = maxPaths then
    (s.modifyInfo fun i => { i with frontier := 0 }).clearQueue
  else some s

def resetToEmpty : DepthFirstICS R P :=
  { s.modifyInfo fun i => { i with explored := [], frontier := 0 } with
    processed := update s.processed s.currRegion [] }

/-- "Need to upgrade some loops?" -/
def restart (forked : Nat) : Option (DepthFirstICS R P) :=
  if s.loopsToUpgrade then do
    let s := ({ s with loopsToUpgrade := false }).clearRegionStagingArea
    let s ← (s.addRegion s.currRegion).resetToEmpty.clearQueue
    s.forkNextPath forked
  else some s

local instance : LawfulBEq (R × Nat) := inferInstance

/-- "Done with the current region?"  The flag says if the selection goes on. -/
def nextRegion (maxRegions : Nat) (next : R × Nat) : Option (DepthFirstICS R P × Bool) :=
  if s.currQueue = [] ∧ (s.info s.currRegion).frontier = 0 then do
    let s ← s.flushRegionStagingArea
    let root ← s.currRoot
    let s ← ({ s with
      completedRegions := s.completedRegions ++ [s.currRegion]
      currRoot := none }).discardState root
    if s.regionsFrontier = [] ∨ (0 < maxRegions ∧ maxRegions ≤ s.completedRegions.length) then
      some (s, false)
    else if next ∈ s.regionsFrontier ∧ next.2 ∉ s.currQueue then
      some (({ s with
        currRegion := next.1
        currRoot := some next.2
        currQueue := next.2 :: s.currQueue
        regionsFrontier := s.regionsFrontier.erase next }).addRegion next.1, true)
    else none
  else some (s, true)

/-- "Done with the current DFS?" -/
def nextPath (forked : Nat) : Option (DepthFirstICS R P) :=
  if s.currQueue = [] then do
    let s ← s.forkNextPath forked
    if (s.info s.currRegion).frontier = 0 then none
    else some (s.modifyInfo fun i => { i with frontier := i.frontier - 1 })
  else some s

def onNextJobSelection (sel : JobSelection R P) :
    Option (DepthFirstICS R P) := do
  let s ← s.limitDepth sel.depthLimit
  let s ← s.limitPaths sel.maxPaths
  let s ← s.restart sel.forked
  let (s, goesOn) ← s.nextRegion sel.maxRegions sel.next
  if goesOn then s.nextPath sel.forked else some s

def step : IcsEvent R P → Option (DepthFirstICS R P)
  | .onStateActivated state => s.onStateActivated state
  | .onUpdateAfterBranch state => s.onUpdateAfterBranch state
  | .onStateDeactivated state discarded deadlocks id path =>
    s.onStateDeactivated state discarded deadlocks id path
  | .onIcsBegin state forked => s.onIcsBegin state forked
  | .onIcsMaybeEndRegion state id path => s.onIcsMaybeEndRegion state id path
  | .onNextJobSelection sel => s.onNextJobSelection sel

end

/-! ## What the parts of a callback do -/

variable {s s' : DepthFirstICS R P} {state : Nat} {id : R} {path : ProcessedPath P}
  {sel : JobSelection R P}

omit [DecidableEq R] in
lemma discardState_eq (h : s.discardState state = some s') :
    s' = { s with currQueue := s.currQueue.erase state, live := s.live.erase state } := by
  unfold discardState at h
  split at h
  · cases h
  · exact (Option.some.inj h).symm

omit [DecidableEq R] in
lemma foldlM_discardState_eq {queue : List Nat} (h : queue.foldlM discardState s = some s') :
    s' = { s with currQueue := s.currQueue.diff queue, live := s.live \ queue.toFinset } := by
  induction queue generalizing s with
  | nil =>
    cases h
    simp
  | cons q queue ih =>
    rw [foldlM_cons] at h
    obtain ⟨s₁, h₁, h⟩ := bind_eq_some_iff.1 h
    have hlive : s.live.erase q \ queue.toFinset = s.live \ (q :: queue).toFinset := by
      ext x
      simp only [Finset.mem_sdiff, Finset.mem_erase, List.mem_toFinset, mem_cons]
      tauto
    rw [ih h, discardState_eq h₁, diff_cons, ← hlive]

omit [DecidableEq R] in
lemma clearQueue_eq (h : s.clearQueue = some s') :
    s' = { s with currQueue := [], live := s.live \ s.currQueue.toFinset } := by
  have hnil : s.currQueue.diff s.currQueue = [] := by
    apply eq_nil_iff_forall_not_mem.2
    intro x hx
    have hcount := count_pos_iff.2 hx
    rw [count_diff] at hcount
    omega
  have := foldlM_discardState_eq h
  rwa [hnil] at this

@[simp] lemma recordPath_frame :
    (s.recordPath exits deadlocks id path).currRegion = s.currRegion ∧
    (s.recordPath exits deadlocks id path).currRoot = s.currRoot ∧
    (s.recordPath exits deadlocks id path).currQueue = s.currQueue ∧
    (s.recordPath exits deadlocks id path).regionsFrontier = s.regionsFrontier ∧
    (s.recordPath exits deadlocks id path).regions = s.regions ∧
    (s.recordPath exits deadlocks id path).completedRegions = s.completedRegions ∧
    (s.recordPath exits deadlocks id path).localRegionsFrontier = s.localRegionsFrontier ∧
    (s.recordPath exits deadlocks id path).live = s.live := by
  unfold recordPath addRegionEdge
  split <;> simp [addRegion, modifyInfo]

lemma processPath_eq (h : s.processPath state exits deadlocks id path = some s') :
    state ∈ s.currQueue ∧
      s' = { s.recordPath exits deadlocks id path with
        currQueue := []
        live := s.live \ (s.currQueue.erase state).toFinset } := by
  obtain ⟨s₁, h₁, h⟩ := bind_eq_some_iff.1 h
  unfold removeState at h₁
  split at h₁
  · rename_i hmem
    cases h₁
    have := clearQueue_eq h
    simp only [recordPath_frame] at hmem this ⊢
    exact ⟨hmem, this⟩
  · cases h₁

omit [DecidableEq R] in
lemma forkNextPath_eq (h : s.forkNextPath forked = some s') :
    s.currRoot ≠ none ∧ s.currQueue = [] ∧
      s' = { s with currQueue := [forked], live := insert forked s.live } := by
  unfold forkNextPath at h
  split at h
  · rename_i hc
    exact ⟨hc.1, hc.2.1, (Option.some.inj h).symm⟩
  · cases h

omit [DecidableEq R] in
lemma onStateActivated_cases (h : s.onStateActivated state = some s') :
    (s.currRoot = none ∧ s.currQueue = [] ∧ s.regions = [] ∧
      s' = { s with currRoot := some state, currQueue := [state], live := insert state s.live }) ∨
    (s.currRoot ≠ none ∧
      s' = { s with currQueue := state :: s.currQueue, live := insert state s.live }) := by
  unfold onStateActivated at h
  split at h
  · cases h
  split at h
  · rename_i hroot
    split at h
    · rename_i hfirst
      exact .inl ⟨hroot, hfirst.1, hfirst.2.1, (Option.some.inj h).symm⟩
    · cases h
  · rename_i hroot
    exact .inr ⟨hroot, (Option.some.inj h).symm⟩

omit [DecidableEq R] in
lemma onUpdateAfterBranch_eq (h : s.onUpdateAfterBranch state = some s') :
    ∃ hd tl, s.currQueue = hd :: tl ∧ state ∈ tl ∧
      s' = { s with currQueue := state :: tl.map fun x => if x = state then hd else x } := by
  unfold onUpdateAfterBranch at h
  split at h
  · cases h
  rename_i hd tl hqueue
  split at h
  · rename_i hmem
    exact ⟨hd, tl, hqueue, hmem, (Option.some.inj h).symm⟩
  · cases h

lemma onStateDeactivated_cases
    (h : s.onStateDeactivated state discarded deadlocks id path = some s') :
    s' = { s with currQueue := s.currQueue.erase state, live := s.live.erase state } ∨
    (state ∈ s.currQueue ∧ s' = { s.recordPath true deadlocks id path with
        currQueue := []
        live := (s.live \ (s.currQueue.erase state).toFinset).erase state }) := by
  unfold onStateDeactivated at h
  split at h
  · exact .inl (discardState_eq h)
  split at h
  · cases h
  obtain ⟨s₁, hp, h⟩ := bind_eq_some_iff.1 h
  obtain ⟨hmem, rfl⟩ := processPath_eq hp
  exact .inr ⟨hmem, (Option.some.inj h).symm⟩

omit [DecidableEq R] in
lemma onIcsBegin_eq (h : s.onIcsBegin state forked = some s') :
    s.currRoot = some state ∧
      s' = { s with
        currQueue := [forked]
        live := insert forked (s.live \ (s.currQueue.erase state).toFinset) } := by
  unfold onIcsBegin at h
  dsimp only at h
  split at h
  · rename_i hc
    obtain ⟨s₁, h₁, h⟩ := bind_eq_some_iff.1 h
    obtain ⟨s₂, h₂, h⟩ := bind_eq_some_iff.1 h
    obtain ⟨-, hnil, rfl⟩ := forkNextPath_eq h
    refine ⟨hc.1, ?_⟩
    unfold removeState at h₁
    split at h₁
    · cases h₁
      unfold clearForks at h₂
      split at h₂
      · rename_i hempty
        cases h₂
        dsimp only at hempty
        simp only [hempty, toFinset_nil, Finset.sdiff_empty]
      · split at h₂
        · rw [clearQueue_eq h₂]
        · cases h₂
    · cases h₁
  · cases h

lemma onIcsMaybeEndRegion_cases (h : s.onIcsMaybeEndRegion state id path = some s') :
    ∃ rest, s.currQueue = state :: rest ∧ ((¬ s.Registered id ∧
        s' = { s.recordPath false false id path with
          currQueue := []
          live := s.live \ rest.toFinset
          localRegionsFrontier := s.localRegionsFrontier ++ [(id, state)] }) ∨
      (s.Registered id ∧ s' = { s.recordPath false false id path with
          currQueue := []
          live := (s.live \ rest.toFinset).erase state })) := by
  unfold onIcsMaybeEndRegion at h
  split at h
  · rename_i hhead
    obtain ⟨rest, hqueue⟩ : ∃ rest, s.currQueue = state :: rest := by
      cases hq : s.currQueue with
      | nil => simp [hq] at hhead
      | cons q rest =>
        rw [hq] at hhead
        cases hhead
        exact ⟨rest, rfl⟩
    refine ⟨rest, hqueue, ?_⟩
    obtain ⟨s₁, hp, h⟩ := bind_eq_some_iff.1 h
    obtain ⟨-, rfl⟩ := processPath_eq hp
    rw [hqueue, erase_cons_head] at h
    split at h
    · rename_i hnew
      split at h
      · refine .inl ⟨hnew, ?_⟩
        cases h
        simp
      · cases h
    · rename_i hold
      refine .inr ⟨Decidable.not_not.1 hold, ?_⟩
      rw [discardState_eq h]
      simp
  · cases h

/-! ## The parts of a job selection -/

lemma limitDepth_cases {depthLimit : Option (R × ProcessedPath P)}
    (h : s.limitDepth depthLimit = some s') :
    ((depthLimit = none ∨ s.currQueue = []) ∧ s' = s) ∨
    ∃ id path state rest, depthLimit = some (id, path) ∧ s.currQueue = state :: rest ∧
      s' = { s.recordPath false false id path with
        currQueue := []
        live := (s.live \ rest.toFinset).erase state } := by
  cases depthLimit with
  | none => exact .inl ⟨.inl rfl, (Option.some.inj h).symm⟩
  | some d =>
    obtain ⟨id, path⟩ := d
    unfold limitDepth at h
    cases hqueue : s.currQueue with
    | nil =>
      rw [hqueue] at h
      exact .inl ⟨.inr rfl, (Option.some.inj h).symm⟩
    | cons state rest =>
      rw [hqueue] at h
      obtain ⟨s₁, hp, h₁⟩ := bind_eq_some_iff.1 h
      obtain ⟨s₂, hd, hc⟩ := bind_eq_some_iff.1 h₁
      refine .inr ⟨id, path, state, rest, rfl, rfl, ?_⟩
      rw [clearQueue_eq hc, discardState_eq hd, (processPath_eq hp).2]
      simp [hqueue]

lemma limitPaths_cases (h : s.limitPaths maxPaths = some s') :
    s' = s ∨
    s' = { s.modifyInfo fun i => { i with frontier := 0 } with
      currQueue := []
      live := s.live \ s.currQueue.toFinset } := by
  unfold limitPaths at h
  split at h
  · exact .inr (clearQueue_eq h)
  · exact .inl (Option.some.inj h).symm

lemma restart_cases (h : s.restart forked = some s') :
    (s.loopsToUpgrade = false ∧ s' = s) ∨
    (s.loopsToUpgrade = true ∧
      s' = { (({ s with loopsToUpgrade := false }).clearRegionStagingArea.addRegion
          s.currRegion).resetToEmpty with
        currQueue := [forked]
        live := insert forked (s.live \ s.currQueue.toFinset) }) := by
  unfold restart at h
  split at h
  · rename_i hloops
    obtain ⟨s₁, hc, h⟩ := bind_eq_some_iff.1 h
    refine .inr ⟨hloops, ?_⟩
    rw [(forkNextPath_eq h).2.2, clearQueue_eq hc]
    rfl
  · rename_i hloops
    exact .inl ⟨by simpa using hloops, (Option.some.inj h).symm⟩

def finished (s : DepthFirstICS R P) (root : Nat) : DepthFirstICS R P :=
  { s.flushed with
    completedRegions := s.completedRegions ++ [s.currRegion]
    currRoot := none
    live := s.live.erase root }

lemma nextRegion_cases {maxRegions : Nat} {next : R × Nat}
    (h : s.nextRegion maxRegions next = some (s', goesOn)) :
    (s' = s ∧ goesOn = true) ∨
    (s.currQueue = [] ∧ ∃ root, s.currRoot = some root ∧ ((s' = s.finished root ∧ goesOn = false) ∨
      (next ∈ (s.finished root).regionsFrontier ∧ goesOn = true ∧
        s' = ({ s.finished root with
          currRegion := next.1
          currRoot := some next.2
          currQueue := [next.2]
          regionsFrontier := (s.finished root).regionsFrontier.erase next }).addRegion next.1))) := by
  unfold nextRegion at h
  split at h
  · rename_i hdone
    obtain ⟨s₁, hf, h₁⟩ := bind_eq_some_iff.1 h
    obtain ⟨root, hroot, h₂⟩ := bind_eq_some_iff.1 h₁
    obtain ⟨s₂, hd, h₃⟩ := bind_eq_some_iff.1 h₂
    unfold flushRegionStagingArea at hf
    split at hf
    · cases hf
      have hs₂ : s₂ = s.finished root := by
        rw [discardState_eq hd]
        simp [finished, flushed, hdone.1]
      refine .inr ⟨hdone.1, root, hroot, ?_⟩
      rw [hs₂] at h₃
      split at h₃
      · cases h₃
        exact .inl ⟨rfl, rfl⟩
      split at h₃
      · rename_i hnext
        have hqueue : (s.finished root).currQueue = [] := hdone.1
        rw [hqueue] at h₃
        cases h₃
        exact .inr ⟨hnext.1, rfl, rfl⟩
      · cases h₃
    · cases hf
  · cases h
    exact .inl ⟨rfl, rfl⟩

lemma nextPath_cases (h : s.nextPath forked = some s') :
    s' = s ∨
    (s.currRoot ≠ none ∧ s.currQueue = [] ∧
      s' = { s.modifyInfo fun i => { i with frontier := i.frontier - 1 } with
        currQueue := [forked]
        live := insert forked s.live }) := by
  unfold nextPath at h
  split at h
  · rename_i hempty
    obtain ⟨s₁, hf, h⟩ := bind_eq_some_iff.1 h
    obtain ⟨hroot, -, rfl⟩ := forkNextPath_eq hf
    split at h
    · cases h
    · exact .inr ⟨hroot, hempty, (Option.some.inj h).symm⟩
  · exact .inl (Option.some.inj h).symm

def restarts (s : DepthFirstICS R P) (sel : JobSelection R P) : Bool :=
  s.loopsToUpgrade ||
    match sel.depthLimit, s.currQueue with
    | some (_, path), _ :: _ => path.upgrades
    | _, _ => false

lemma limitDepth_loopsToUpgrade
    (h : s.limitDepth sel.depthLimit = some s') : s'.loopsToUpgrade = s.restarts sel := by
  unfold restarts
  rcases limitDepth_cases h with ⟨hno, rfl⟩ | ⟨id, path, state, rest, hdepth, hqueue, rfl⟩
  · rcases hno with hno | hno <;> simp [hno]
  rw [hdepth, hqueue]
  show (s.recordPath false false id path).loopsToUpgrade = _
  unfold recordPath addRegionEdge
  split <;> rfl

lemma limitPaths_loopsToUpgrade (h : s.limitPaths maxPaths = some s') :
    s'.loopsToUpgrade = s.loopsToUpgrade := by
  rcases limitPaths_cases h with rfl | rfl <;> rfl

lemma onNextJobSelection_cases (h : s.onNextJobSelection sel = some s') :
    ∃ s₁ s₂ s₃ s₄ goesOn, s.limitDepth sel.depthLimit = some s₁ ∧
      s₁.limitPaths sel.maxPaths = some s₂ ∧ s₂.restart sel.forked = some s₃ ∧
      s₃.nextRegion sel.maxRegions sel.next = some (s₄, goesOn) ∧
      (s' = s₄ ∨ s₄.nextPath sel.forked = some s') ∧ s₂.loopsToUpgrade = s.restarts sel := by
  obtain ⟨s₁, h₁, ha⟩ := bind_eq_some_iff.1 h
  obtain ⟨s₂, h₂, hb⟩ := bind_eq_some_iff.1 ha
  obtain ⟨s₃, h₃, hc⟩ := bind_eq_some_iff.1 hb
  obtain ⟨⟨s₄, goesOn⟩, h₄, hd⟩ := bind_eq_some_iff.1 hc
  refine ⟨s₁, s₂, s₃, s₄, goesOn, h₁, h₂, h₃, h₄, ?_, ?_⟩
  · dsimp only at hd
    split at hd
    · exact .inr hd
    · exact .inl (Option.some.inj hd).symm
  · rw [limitPaths_loopsToUpgrade h₂, limitDepth_loopsToUpgrade h₁]

end DepthFirstICS

end InputCovSched
