import InputCovSched.Explore.PathConstraint
import InputCovSched.Explore.SharedTraces

/-!
# The trace of an execution (`lib/ICS/PrecondSliceTrace.cpp`)

A state that forks copies its trace. A branch or call at the instruction of the last assertion is
merged into that assertion, and the `attach` operations change the last entry: these write to a
node that the trace may share with its copies. The traces are isolated from each other if and
only if no such step changes an entry that a copy has too (`precondSliceTrace_isolated_iff`).
-/

namespace InputCovSched

open Machine

namespace PrecondSliceTrace

open ForkableTrace

inductive Kind where
  | assertion
  | branch
  | call
  | ret
  | ctxSwitch
  | load
  | store
  | allocation
  | regionMarker
  | resolvedSymbolicPtr
  deriving DecidableEq, Repr

/-- What the operations read of the execution state. -/
structure ExecutionState where
  crtThreadUid : Nat
  prevPC : Nat
  maxNodeId : Nat
  threadPrevPC : Nat → Nat

/-- `none` is a field that the constructor leaves open. Instructions, memory objects, blocks and
pointer resolutions are known by their addresses. -/
structure Entry (E : Type) where
  kind : Kind
  forkclass : ForkClass
  tuid : Nat
  kinst : Nat
  e : Option E
  nbytes : Option E
  mo : Option Nat
  number : Option Nat
  targetTuid : Option Nat
  targetKinst : Option Nat
  ptrResolution : Option Nat
  flippedConditions : List (E × Nat)
  useFlippedConditions : Bool
  otherCtxSwitches : List Nat
  hasFlippableCtxSwitch : Bool
  deriving DecidableEq

inductive Op (E : Type) where
  | pushAssertion (kstate : ExecutionState) (condition : E) (forkclass : ForkClass)
  | pushControlTransfer (kstate : ExecutionState) (targetTuid : Nat) (targetKinst : Option Nat)
      (kind : Kind)
  | pushMemoryAccess (kstate : ExecutionState) (mo : Nat) (offset nbytes : E) (kind : Kind)
  | pushAllocation (kstate : ExecutionState) (mo : Nat)
  | pushRegionMarker (kstate : ExecutionState) (tuid : Nat)
  | pushResolvedSymbolicPtr (kstate : ExecutionState) (res : Nat)
  | pushEntry (e : Entry E)
  | attachFlippedConditions (f : List (E × Nat))
  | attachNewCondition (cond : E)
  | attachOtherCtxSwitches (s : List Nat)

section
variable {E : Type}

def Entry.make (kind : Kind) (forkclass : ForkClass) (kstate : ExecutionState) : Entry E where
  kind := kind
  forkclass := forkclass
  tuid := kstate.crtThreadUid
  kinst := kstate.prevPC
  e := none
  nbytes := none
  mo := none
  number := none
  targetTuid := none
  targetKinst := none
  ptrResolution := none
  flippedConditions := []
  useFlippedConditions := false
  otherCtxSwitches := []
  hasFlippableCtxSwitch := false

def pushAssertion (kstate : ExecutionState) (condition : E) (forkclass : ForkClass) : Entry E :=
  { Entry.make .assertion forkclass kstate with
    e := some condition
    number := some kstate.maxNodeId }

/-- "Merge with a prior Assertion?" -/
def mergesWith (kstate : ExecutionState) (kind : Kind) (e : Entry E) : Prop :=
  (kind = .call ∨ kind = .branch) ∧ e.kind = .assertion ∧ e.tuid = kstate.crtThreadUid ∧
    e.kinst = kstate.prevPC ∧ e.forkclass ≠ .invariantInput

instance (kstate : ExecutionState) (kind : Kind) (e : Entry E) : Decidable (mergesWith kstate kind e) :=
  inferInstanceAs (Decidable (_ ∧ _))

section
variable (kstate : ExecutionState)

section
variable (targetTuid : Nat) (targetKinst : Option Nat) (kind : Kind)

/-- The target is added to `e`, which is the last entry or a new one. -/
def setTarget (e : Entry E) : Entry E :=
  { e with
    kind := kind
    targetTuid := some targetTuid
    targetKinst := targetKinst
    number := some kstate.maxNodeId }

def pushControlTransfer (last : Option (Entry E)) : Option (Change (Entry E)) :=
  -- a CtxSwitch should actually switch threads
  if kind = .ctxSwitch ∧ targetTuid = kstate.crtThreadUid then none
  else
    let new := setTarget kstate targetTuid targetKinst kind (Entry.make kind .branch kstate)
    match last with
    | none => some (.push new)
    | some e =>
      if mergesWith kstate kind e then some (.setBack (setTarget kstate targetTuid targetKinst kind e))
      else some (.push new)

end

def pushMemoryAccess (mo : Nat) (offset nbytes : E) (kind : Kind) :
    Option (Entry E) :=
  if kind = .load ∨ kind = .store then
    some { Entry.make kind .branch kstate with
      mo := some mo
      e := some offset
      nbytes := some nbytes }
  else none

def pushAllocation (mo : Nat) : Entry E :=
  { Entry.make .allocation .branch kstate with mo := some mo }

/-- The thread is not the current one. -/
def pushRegionMarker (tuid : Nat) : Entry E :=
  { Entry.make .regionMarker .branch kstate with
    tuid := tuid
    kinst := kstate.threadPrevPC tuid }

def pushResolvedSymbolicPtr (res : Nat) : Entry E :=
  { Entry.make .resolvedSymbolicPtr .pointerAliasing kstate with ptrResolution := some res }

end

/-- The last entry must be there and pass the assertion. -/
def attach (ok : Entry E → Bool) (f : Entry E → Entry E) (last : Option (Entry E)) :
    Option (Change (Entry E)) := do
  let e ← last
  if ok e then some (.setBack (f e)) else none

def attachFlippedConditions (f : List (E × Nat)) : Option (Entry E) → Option (Change (Entry E)) :=
  attach (fun e => e.kind = .assertion ∨ e.kind = .branch) fun e =>
    { e with
      flippedConditions := f
      useFlippedConditions := true }

def attachNewCondition (cond : E) : Option (Entry E) → Option (Change (Entry E)) :=
  attach (fun e => e.kind = .assertion ∨ e.kind = .branch) fun e => { e with e := some cond }

def attachOtherCtxSwitches (s : List Nat) : Option (Entry E) → Option (Change (Entry E)) :=
  attach (fun e => e.kind = .ctxSwitch ∧ e.targetTuid.all fun t => t ∉ s) fun e =>
    { e with
      otherCtxSwitches := s
      hasFlippableCtxSwitch := true }

def effect : Op E → Option (Entry E) → Option (Change (Entry E))
  | .pushAssertion kstate condition forkclass, _ =>
    some (.push (pushAssertion kstate condition forkclass))
  | .pushControlTransfer kstate targetTuid targetKinst kind, last =>
    pushControlTransfer kstate targetTuid targetKinst kind last
  | .pushMemoryAccess kstate mo offset nbytes kind, _ =>
    (pushMemoryAccess kstate mo offset nbytes kind).map .push
  | .pushAllocation kstate mo, _ => some (.push (pushAllocation kstate mo))
  | .pushRegionMarker kstate tuid, _ => some (.push (pushRegionMarker kstate tuid))
  | .pushResolvedSymbolicPtr kstate res, _ => some (.push (pushResolvedSymbolicPtr kstate res))
  | .pushEntry e, _ => some (.push e)
  | .attachFlippedConditions f, last => attachFlippedConditions f last
  | .attachNewCondition cond, last => attachNewCondition cond last
  | .attachOtherCtxSwitches s, last => attachOtherCtxSwitches s last

lemma effect_none (op : Op E) (x : Entry E) : effect op none ≠ some (.setBack x) := by
  cases op with
  | pushControlTransfer kstate targetTuid targetKinst kind =>
    simp only [effect, pushControlTransfer]
    split <;> simp
  | pushMemoryAccess kstate mo offset nbytes kind =>
    simp [effect]
  | _ => simp [effect, attachFlippedConditions, attachNewCondition, attachOtherCtxSwitches, attach]

def api (E : Type) : TraceApi (Op E) (Entry E) where
  effect := effect
  effect_none := effect_none

/-- Isolation of the traces of all states, at all times of a run. -/
theorem precondSliceTrace_isolated_iff (calls : List (Call (Op E))) :
    (∀ begun, begun <+: calls →
      Option.Rel Isolated (runFrom (Heap.step · (api E)) Heap.empty begun)
        (runFrom (stepLists (api E)) [] begun)) ↔
      Meets (Heap.step · (api E)) (Unshared (api E)) Heap.empty calls :=
  isolated_iff (api E) calls

end

def atBranch : ExecutionState := ⟨1, 7, 0, fun _ => 0⟩

def forkThenBranch (between : List (Call (Op Nat))) : List (Call (Op Nat)) :=
  [.create, .apply 0 (.pushAssertion atBranch 5 .branch), .copy 0] ++ between ++
    [.apply 0 (.pushControlTransfer atBranch 1 (some 8) .branch)]

theorem precondSliceTrace_isolated_iff_own_assertion :
    ∀ begun, begun <+: forkThenBranch [.apply 0 (.pushAssertion atBranch 6 .branch)] →
      Option.Rel Isolated (runFrom (Heap.step · (api Nat)) Heap.empty begun)
        (runFrom (stepLists (api Nat)) [] begun) := by
  refine (precondSliceTrace_isolated_iff _).2
    ⟨trivial, fun t x ht h => ?_, trivial, fun t x ht h => ?_, fun t x ht h => Or.inr ?_, trivial⟩
  · cases h
  · cases h
  · -- the last entry is in the node that trace 0 got at the fork
    intro t n e ht hback j u hu hn
    cases ht
    cases hback
    match j with
    | 0 => rfl
    | 1 =>
      cases hu
      revert hn
      decide
    | j + 2 => cases hu

/-- The branch of the one trace is merged into an assertion that both have: the other trace, which
nobody touched, has a branch instead of its assertion. -/
theorem merge_changes_copy :
    ∃ h lists, runFrom (Heap.step · (api Nat)) Heap.empty (forkThenBranch []) = some h ∧
      runFrom (stepLists (api Nat)) [] (forkThenBranch []) = some lists ∧ ¬ Isolated h lists ∧
      (lists[1]?.map fun l => l.map Entry.kind) = some [.assertion] ∧
      (h.traces[1]?.map fun t => (h.contents t).map Entry.kind) = some [.branch] := by
  refine ⟨_, _, rfl, rfl, ?_, by decide, by decide⟩
  rw [Heap.isolated_iff_agree]
  rintro ⟨hmap, -⟩
  revert hmap
  decide

end PrecondSliceTrace

end InputCovSched
