import InputCovSched.Runtime.Clock

/-!
# Schedules in fragments and schedules in one piece

One thread walks over its words, region by region. The same happens-before graph can be dumped as
one fragment or cut into several; in the last fragment inputs are skipped.

The end of a fragment (`0xffff`) and the end of the schedule (0) are different words, and
three places test for the second one only: a wait that may sleep, the test for a region
barrier, and the end of `pthread_exit`. `OpOk` says of an operation that no such test is
made at a fragment end behind which nothing is left for the thread.
-/

namespace InputCovSched

/-- The result of runtime code: it goes on, it waits for ever at the last region barrier,
or an assertion fails. -/
inductive Outcome (α : Type) where
  | ok (a : α)
  | waits
  | fails
  deriving DecidableEq, Repr

namespace Outcome

def bind {α β : Type} (o : Outcome α) (f : α → Outcome β) : Outcome β :=
  match o with
  | .ok a => f a
  | .waits => .waits
  | .fails => .fails

/-- If it goes on, then in a state with the property. -/
def All {α : Type} (p : α → Prop) : Outcome α → Prop
  | .ok a => p a
  | .waits => True
  | .fails => True

instance {α : Type} (p : α → Prop) [DecidablePred p] : (o : Outcome α) → Decidable (o.All p)
  | .ok a => inferInstanceAs (Decidable (p a))
  | .waits => isTrue trivial
  | .fails => isTrue trivial

variable {α β : Type} {o : Outcome α} {R : α → β → Prop}

lemma All.of_ok (h : ∀ a, o = .ok a → p a) : o.All p := by
  cases o with
  | ok a => exact h a rfl
  | waits => trivial
  | fails => trivial

lemma All.ok (h : o.All p) (ho : o = .ok a) : p a := by
  rw [ho] at h
  exact h

def Rel {α β : Type} (R : α → β → Prop) : Outcome α → Outcome β → Prop
  | .ok a, .ok b => R a b
  | .waits, .waits => True
  | .fails, .fails => True
  | _, _ => False

lemma Rel.bind {α' β' : Type} {R' : α' → β' → Prop} {f : α → Outcome α'} {f' : β → Outcome β'}
    (h : Rel R o o') (hf : ∀ a b, o = .ok a → R a b → Rel R' (f a) (f' b)) :
    Rel R' (o.bind f) (o'.bind f') := by
  cases o <;> cases o' <;> simp only [Rel] at h
  · exact hf _ _ rfl h
  · trivial
  · trivial

lemma Rel.imp {R' : α → β → Prop} (h : Rel R o o') (hr : ∀ a b, R a b → R' a b) :
    Rel R' o o' := by
  cases o <;> cases o' <;> simp only [Rel] at h ⊢
  exact hr _ _ h

lemma Rel.ok_left {o : Outcome β} (h : Rel R (.ok a) o) : ∃ b, o = .ok b ∧ R a b := by
  cases o with
  | ok b => exact ⟨b, rfl, h⟩
  | waits => cases h
  | fails => cases h

lemma Rel.fails_iff (h : Rel R o o') :
    (o = .fails ↔ o' = .fails) ∧ (o = .waits ↔ o' = .waits) := by
  cases o <;> cases o' <;> simp [Rel] at h ⊢

end Outcome

/-- What one thread sees of a region: its words in each fragment, whether it is among the
threads of the schedule (`MyThreadId < numThreads`), and whether the schedule ends the
program. -/
structure ThreadRegion where
  frags : List (List Nat)
  hasThread : Bool
  exitsProgram : Bool
  deriving DecidableEq, Repr

/-- `ptr` is `MyThreadSchedulePtr`, `later` the words of the later fragments of the region.
The flag `exitsProgram` is read at the end of the schedule only, in the last fragment. -/
structure Cursor where
  ptr : List Nat
  later : List (List Nat)
  exitsProgram : Bool
  regions : List ThreadRegion
  deriving DecidableEq, Repr

inductive ThreadOp where
  /-- `DoOneSyncOpMustExist`. -/
  | sync (ctx : Nat)
  /-- `DoOneSyncOpMustExistCanSleep`. -/
  | sleepSync (ctx : Nat)
  /-- `DoNewInput`. -/
  | input (ctx : Nat)
  /-- `klee_ics_region_marker`. -/
  | regionMarker (ctx : Nat)
  /-- `SkipRegionBarriersOrExit`. -/
  | skipRegionBarriers
  /-- The end of `pthread_exit`. -/
  | exit (ctx : Nat)
  deriving DecidableEq, Repr

def isFragmentComplete (ptr : List Nat) : Bool := ptr.head? == some endFragmentSentinal

def isScheduleComplete (ptr : List Nat) : Bool := ptr.head? == some 0

def skipNopScheduleNodes (ptr : List Nat) : List Nat := ptr.dropWhile fun w => w == skipHbNodeFlag

namespace Cursor

/-- The loop of `AdvanceToNextFragmentIfComplete`. -/
def advanceLoop : List Nat → List (List Nat) → List Nat × List (List Nat)
  | ptr, [] => (ptr, [])
  | ptr, w :: ws =>
    if isFragmentComplete ptr then advanceLoop (skipNopScheduleNodes w) ws else (ptr, w :: ws)

def advanceToNextFragmentIfComplete (c : Cursor) : Cursor :=
  let (ptr, later) := advanceLoop c.ptr c.later
  { c with ptr := ptr, later := later }

/-- `WaitForHbNode` once all clocks are there: `none` when it returns false, else the input
id it captured (0 when the caller expects no input). -/
def waitForHbNode (table : Nat → Nat) (c : Cursor) (ctx : Nat) (expectingInput : Bool) :
    Option Nat × Cursor :=
  let c := c.advanceToNextFragmentIfComplete
  match c.ptr with
  | [] => (none, c)
  | raw :: rest =>
    if raw = 0 then (none, c)
    else if wordMatches table raw ctx expectingInput then
      match if expectingInput then rest.tail else rest with
      | numincoming :: more =>
        (some (if expectingInput then rest.headD 0 else 0),
          { c with ptr := skipNopScheduleNodes (more.drop (2 * numincoming)) })
      | [] => (none, c)
    else (none, c)

def start (r : ThreadRegion) (regions : List ThreadRegion) : Cursor where
  ptr := skipNopScheduleNodes (r.frags.headD [])
  later := r.frags.tail
  exitsProgram := r.exitsProgram
  regions := regions

/-- `RegionBarrier` and the initialization of the pointer behind it. A thread that is not in
the schedule goes on to the next region when it went through at least one fragment end. -/
def regionBarrier : Bool → List ThreadRegion → Outcome Cursor
  | true, _ => .fails
  | false, [] => .waits
  | false, r :: rs =>
    if r.hasThread then .ok (start r rs)
    else if r.frags.length ≤ 1 then .fails
    else regionBarrier r.exitsProgram rs

/-- `while (IsScheduleComplete()) RegionBarrier();`, with a way out at the end of the program
for `SkipRegionBarriersOrExit`. Each turn uses up a region, so one turn more than there are
regions is enough. -/
def barrierLoop (stopAtExit : Bool) : Nat → Cursor → Outcome Cursor
  | 0, _ => .waits
  | n + 1, c =>
    if isScheduleComplete c.ptr then
      if stopAtExit && c.exitsProgram then .ok c
      else (regionBarrier c.exitsProgram c.regions).bind (barrierLoop stopAtExit n)
    else .ok c

def skipBarriers (stopAtExit : Bool) (c : Cursor) : Outcome Cursor :=
  barrierLoop stopAtExit (c.regions.length + 1) c

/-- `WaitForHbNodeMustExist` that does not sleep. -/
def mustExist (table : Nat → Nat) (c : Cursor) (ctx : Nat) : Outcome Cursor :=
  match c.waitForHbNode table ctx false with
  | (some _, c) => .ok c
  | (none, _) => .fails

def step (table : Nat → Nat) (c : Cursor) : ThreadOp → Outcome Cursor
  | .sync ctx => c.mustExist table ctx
  | .sleepSync ctx => (c.skipBarriers false).bind fun c => c.mustExist table ctx
  | .input ctx =>
    match c.waitForHbNode table ctx true with
    | (none, c) => .ok c
    | (some inputId, c) => if inputId = 0 then .fails else .ok c.advanceToNextFragmentIfComplete
  | .regionMarker ctx =>
    (c.mustExist table ctx).bind fun c =>
      let c := c.advanceToNextFragmentIfComplete
      if isScheduleComplete c.ptr && !c.exitsProgram then regionBarrier c.exitsProgram c.regions
      else .ok c
  | .skipRegionBarriers => c.skipBarriers true
  | .exit ctx =>
    (c.mustExist table ctx).bind fun c => if isScheduleComplete c.ptr then .ok c else .fails

def run (table : Nat → Nat) : Cursor → List ThreadOp → Outcome Cursor
  | c, [] => .ok c
  | c, op :: ops => (c.step table op).bind fun c => run table c ops

/-! ## The loop of barriers has enough turns -/

lemma regionBarrier_regions {exits : Bool} {regions : List ThreadRegion}
    (h : regionBarrier exits regions = .ok c) : c.regions.length < regions.length := by
  induction regions generalizing exits with
  | nil => cases exits <;> simp [regionBarrier] at h
  | cons r rs ih =>
    cases exits with
    | true => simp [regionBarrier] at h
    | false =>
      unfold regionBarrier at h
      split at h
      · cases h
        simp [start]
      split at h
      · cases h
      have := ih h
      simp only [List.length_cons]
      omega

end Cursor

/-! ## The two dumps of a graph -/

/-- The number of threads of a schedule: `maxThread + 1`. -/
def HBGraph.numThreads (g : HBGraph) : Nat := g.nodes.foldl (fun m n => max m n.tuid) 0 + 1

/-- A graph that is dumped in fragments and in one piece. The ids of inputs start at 1. -/
structure CutRegion where
  cut : DumpedRegion
  exitsProgram : Bool
  inputIds_pos : ∀ frag, frag ∈ cut.frags → ∀ obj id, frag.inputIds obj = some id → 0 < id
  wholeDumps : ∀ n, n ∈ cut.graph.nodes →
    (dumpNode cut.tab (wholeFragment cut.graph) n).isSome = true

namespace CutRegion

def words (R : CutRegion) (t : Nat) (frag : ScheduleFragment) : List Nat :=
  (dumpThreadSchedule R.cut.tab frag t).getD []

/-- What thread `t` sees of the region. -/
def split (t : Nat) (R : CutRegion) : ThreadRegion where
  frags := R.cut.frags.map (R.words t)
  hasThread := decide (t < R.cut.graph.numThreads)
  exitsProgram := R.exitsProgram

def whole (R : CutRegion) : CutRegion where
  cut := .whole R.cut.graph R.cut.tab R.cut.callctxTable R.cut.orders R.wholeDumps
  exitsProgram := R.exitsProgram
  inputIds_pos := by
    intro frag hf obj id hid
    rw [List.mem_singleton.1 hf] at hid
    cases hid
  wholeDumps := R.wholeDumps

def unsplit (t : Nat) (R : CutRegion) : ThreadRegion := R.whole.split t

end CutRegion

namespace Cursor

/-- The next word starts a node that reads a kept input. -/
def atInput (ptr : List Nat) : Bool :=
  match ptr with
  | [] => false
  | raw :: _ => raw != 0 && raw != endFragmentSentinal && wordHasInput raw

def NoInputNext (c : Cursor) : Prop := atInput c.advanceToNextFragmentIfComplete.ptr = false

/-- When nothing of the thread is left in the region, the pointer is at the end of the
schedule and not at the end of an earlier fragment. -/
def NotStale (c : Cursor) : Prop :=
  isScheduleComplete c.advanceToNextFragmentIfComplete.ptr = true → isScheduleComplete c.ptr = true

/-- The thread is in the schedule of every later region that is cut. -/
def InCutRegions (c : Cursor) : Prop :=
  ∀ r, r ∈ c.regions → r.hasThread = true ∨ r.frags.length ≤ 1

/-- Each test of the loop of barriers is made where the two sentinels cannot be confused. -/
def LoopOk : Nat → Cursor → Prop
  | 0, _ => True
  | n + 1, c => NoInputNext c ∧ NotStale c ∧ (regionBarrier c.exitsProgram c.regions).All fun c' =>
      isScheduleComplete c.ptr = false ∨ LoopOk n c'

/-- The condition on the state of the split run before an operation. -/
def OpOk (table : Nat → Nat) (c : Cursor) : ThreadOp → Prop
  | .sync _ => NoInputNext c
  | .sleepSync _ => InCutRegions c ∧ LoopOk (c.regions.length + 1) c
  | .input _ => True
  | .regionMarker ctx => NoInputNext c ∧ InCutRegions c ∧ (c.mustExist table ctx).All NoInputNext
  | .skipRegionBarriers => InCutRegions c ∧ LoopOk (c.regions.length + 1) c
  | .exit ctx =>
    NoInputNext c ∧ (c.mustExist table ctx).All fun c' => NoInputNext c' ∧ NotStale c'

/-- Every operation of the run meets the condition. -/
def OpsOk (table : Nat → Nat) : Cursor → List ThreadOp → Prop
  | _, [] => True
  | c, op :: ops => OpOk table c op ∧ (c.step table op).All fun c' => OpsOk table c' ops

instance : DecidablePred NoInputNext := fun _ => inferInstanceAs (Decidable (_ = _))

instance : DecidablePred NotStale := fun _ => inferInstanceAs (Decidable (_ → _))

instance : DecidablePred InCutRegions := fun c =>
  inferInstanceAs (Decidable (∀ r, r ∈ c.regions → r.hasThread = true ∨ r.frags.length ≤ 1))

instance decidableLoopOk : (n : Nat) → DecidablePred (LoopOk n)
  | 0 => fun _ => isTrue trivial
  | n + 1 => fun c =>
    have := decidableLoopOk n
    inferInstanceAs (Decidable (NoInputNext c ∧ NotStale c ∧
      (regionBarrier c.exitsProgram c.regions).All fun c' =>
        isScheduleComplete c.ptr = false ∨ LoopOk n c'))

instance (table : Nat → Nat) (c : Cursor) : DecidablePred (OpOk table c)
  | .sync _ => inferInstanceAs (Decidable (NoInputNext c))
  | .sleepSync _ => inferInstanceAs (Decidable (_ ∧ _))
  | .input _ => isTrue trivial
  | .regionMarker _ => inferInstanceAs (Decidable (_ ∧ _ ∧ _))
  | .skipRegionBarriers => inferInstanceAs (Decidable (_ ∧ _))
  | .exit _ => inferInstanceAs (Decidable (_ ∧ _))

instance decidableOpsOk (table : Nat → Nat) :
    (ops : List ThreadOp) → DecidablePred fun c => OpsOk table c ops
  | [] => fun _ => isTrue trivial
  | op :: ops => fun c =>
    have := decidableOpsOk table ops
    inferInstanceAs (Decidable (OpOk table c op ∧
      (c.step table op).All fun c' => OpsOk table c' ops))

end Cursor

end InputCovSched
