import InputCovSched.Explore.PathConstraint

/-!
# Exploring the paths of a region (`lib/ICS/PathManager.cpp`)

`processSlice` goes through the slice of a run. Every branch condition that the solver does
not find redundant extends the path constraint of the run, and each of its flipped conditions
gives a path constraint for the frontier unless one with the same canonical form was seen
before. `instantiateNextInput` takes the next path from the frontier. The calls on one manager
are the steps of an `Exploration`.
-/

namespace InputCovSched

/-- An entry of a slice, with what exploration reads of it. `otherCtxSwitches` is `none` if the
entry has no flippable context switch. -/
structure SliceEntry (E : Type) where
  condition : Option E
  forkclass : ForkClass
  flippedConditions : Option (List E)
  maxHbNodeId : Nat
  targetTuid : Nat
  otherCtxSwitches : Option (List Nat)

/-- The answers of the solver under a list of constraints. -/
structure Solver (E : Type) where
  simplifiesToTrue : List E → E → Bool
  mustBeTrue : List E → E → Bool

structure QueuedPathConstraint (E : Type) where
  pc : PathConstraint E
  hbGraph : HBGraph
  hbGraphMaxIdToReplay : Nat

/-- `frontierSet` and `exploredSet` only grow. -/
structure PathManager (E : Type) where
  frontier : List (QueuedPathConstraint E)
  frontierSet : List E
  explored : List (CoveredSchedule E)
  exploredSet : List E
  nextId : Nat

/-- One call of `processSlice`: the slice and graph of a run, and what the solver says. -/
structure SliceCall (E : Type) where
  slice : List (SliceEntry E)
  solver : Solver E
  noConcretizationConstraintsInSlice : Bool
  hbGraph : HBGraph
  programExited : Bool

/-! ## The entries of a slice -/

/-- A branch that is not redundant. -/
structure SliceBranch (E : Type) where
  cond : E
  flippedConditions : Option (List E)

/-- What the loop does with an entry's condition. -/
inductive SliceAction (E : Type) where
  | skip
  | assume (cond : E)
  | extraInvariant (fc : ForkClass) (cond : E)
  | branch (b : SliceBranch E)

section
variable {E I : Type}

def SliceBranch.flips (T : ExprTheory E I) (b : SliceBranch E) : List E :=
  b.flippedConditions.getD [T.createIsZero b.cond]

/-- `constraints` is what is assumed up to this entry. -/
def SliceEntry.action (call : SliceCall E) (constraints : List E) (e : SliceEntry E) :
    SliceAction E :=
  match e.condition with
  | none => .skip
  | some cond =>
    -- input constraints should be duplicated by branches later in the slice
    if e.forkclass = .invariantInput then .skip
    else if e.forkclass = .pointerAliasing ∨
        (call.noConcretizationConstraintsInSlice ∧ e.forkclass.isConcretization) then
      .assume cond
    else if !e.forkclass.isBranching then
      if call.solver.simplifiesToTrue constraints cond then .skip
      else .extraInvariant e.forkclass cond
    else if call.solver.mustBeTrue constraints cond then .skip
    else .branch ⟨cond, e.flippedConditions⟩

def SliceAction.constraint : SliceAction E → List E
  | .skip => []
  | .assume cond => [cond]
  | .extraInvariant _ cond => [cond]
  | .branch b => [b.cond]

def anyBranchesLeft (slice : List (SliceEntry E)) : Bool :=
  slice.any fun next =>
    (next.condition.isSome && next.forkclass.isBranchingOrInput) || next.otherCtxSwitches.isSome

end

/-! ## The manager -/

section
variable {E I : Type} [LinearOrder E] (T : ExprTheory E I)

namespace PathManager

section
variable (pm : PathManager E) (b : PathConstraintBuilder E)

def alreadySeen : Bool :=
  pm.exploredSet.contains b.fullCanonical || pm.exploredSet.contains b.conciseCanonical ||
    pm.frontierSet.contains b.fullCanonical || pm.frontierSet.contains b.conciseCanonical

def insertExplored : PathManager E :=
  { pm with exploredSet := b.conciseCanonical :: b.fullCanonical :: pm.exploredSet }

end

/-- For a disjunction, each of its terms counts as explored too. -/
def addExplored (pm : PathManager E) (prior : PathConstraintBuilder E) (cond : E)
    (currHbNodeId : Nat) : PathManager E × PathConstraintBuilder E :=
  let b := prior.add T cond currHbNodeId
  let pm := pm.insertExplored b
  match T.orTerms cond with
  | none => (pm, b)
  | some terms =>
    (terms.foldl (fun pm term => pm.insertExplored (prior.addToCanonical T term)) pm, b)

section
variable (hbGraph : HBGraph) (lastId : Nat) (b : PathConstraintBuilder E)

def pushFlipped (pm : PathManager E) (flip : E) : PathManager E :=
  let flipped := b.add T flip lastId
  if pm.alreadySeen flipped then pm
  else
    { pm with
      frontier := pm.frontier ++ [⟨flipped.pc, hbGraph, lastId⟩]
      frontierSet := flipped.conciseCanonical :: flipped.fullCanonical :: pm.frontierSet }

def pushCtxSwitches (others : List Nat) (pm : PathManager E) : PathManager E :=
  { pm with
    frontier := pm.frontier ++ others.map fun t =>
      ⟨{ b.pc with ctxswitches := b.pc.ctxswitches ++ [t] }, hbGraph, lastId⟩ }

end

end PathManager

structure SliceState (E : Type) where
  pm : PathManager E
  pcBuilder : PathConstraintBuilder E
  constraints : List E
  oldHbGraphLastId : Nat

namespace SliceState

def ctxSwitch (call : SliceCall E) (st : SliceState E) (e : SliceEntry E) : SliceState E :=
  match e.otherCtxSwitches with
  | none => st
  | some others =>
    { st with
      pm := st.pm.pushCtxSwitches call.hbGraph st.oldHbGraphLastId st.pcBuilder others
      pcBuilder :=
        { st.pcBuilder with
          pc := { st.pcBuilder.pc with
            ctxswitches := st.pcBuilder.pc.ctxswitches ++ [e.targetTuid] } } }

def act (call : SliceCall E) (maxHbNodeId : Nat) (st : SliceState E) :
    SliceAction E → SliceState E
  | .skip => st
  | .assume cond => { st with constraints := st.constraints ++ [cond] }
  | .extraInvariant fc cond =>
    { st with
      pcBuilder := st.pcBuilder.addExtraInvariant fc cond
      constraints := st.constraints ++ [cond] }
  | .branch b =>
    let pm := (b.flips T).foldl (PathManager.pushFlipped T call.hbGraph maxHbNodeId st.pcBuilder)
      st.pm
    let (pm, pcBuilder) := pm.addExplored T st.pcBuilder b.cond maxHbNodeId
    ⟨pm, pcBuilder, st.constraints ++ [b.cond], maxHbNodeId⟩

def processEntry (call : SliceCall E) (st : SliceState E) (e : SliceEntry E) : SliceState E :=
  let st := st.ctxSwitch call e
  st.act T call e.maxHbNodeId (e.action call st.constraints)

def processEntries (call : SliceCall E) : List (SliceEntry E) → SliceState E → SliceState E
  | [], st => st
  | e :: slice, st =>
    if anyBranchesLeft (e :: slice) then processEntries call slice (processEntry T call st e)
    else st

end SliceState

namespace PathManager

def finishPath (pm : PathManager E) (pc : PathConstraint E) (call : SliceCall E) :
    PathManager E :=
  { pm with
    explored := pm.explored ++
      [⟨pc.trimExtraInvariants, call.hbGraph, call.programExited, pm.nextId + 1⟩]
    nextId := pm.nextId + 1 }

def eraseSubsumed (pm : PathManager E) : PathManager E :=
  { pm with frontier := pm.frontier.filter fun q => !pm.exploredSet.contains q.pc.canonical }

def processSlice (inputHarnessConstraints : List E) (call : SliceCall E) (pm : PathManager E) :
    PathManager E :=
  let st := SliceState.processEntries T call call.slice
    ⟨pm, PathConstraintBuilder.empty T, inputHarnessConstraints, 0⟩
  (st.pm.finishPath st.pcBuilder.pc call).eraseSubsumed

/-- Returns the path, `none` is the failed assertion that there is one. -/
def instantiateNextInput (pm : PathManager E) : Option (QueuedPathConstraint E × PathManager E) :=
  match pm.frontier with
  | [] => none
  | next :: frontier => some (next, { pm with frontier := frontier })

end PathManager

/-- The constraints that `instantiateNextInput` gives to the executor: the branch conditions,
and the invariants that they depend on. -/
def PathConstraint.instantiated (pc : PathConstraint E) : List E :=
  -- added without simplification; an entry is kept if it is one of the dependent terms
  let tmp := (pc.list.filter fun e => e.fc ≠ .invariantInput).map Entry.expr
  let dependent := T.dependentConstraints tmp pc.fullSummary
  (pc.list.filter fun e => e.fc == .invariantInput || dependent.contains e.expr).map Entry.expr

/-! ## Calls on one manager -/

def actionsOf (call : SliceCall E) : List (SliceEntry E) → List E → List (SliceAction E)
  | [], _ => []
  | e :: slice, constraints =>
    if anyBranchesLeft (e :: slice) then
      e.action call constraints ::
        actionsOf call slice (constraints ++ (e.action call constraints).constraint)
    else []

def SliceAction.assumption? : SliceAction E → Option E
  | .assume cond => some cond
  | .extraInvariant _ cond => some cond
  | _ => none

def SliceAction.branch? : SliceAction E → Option (SliceBranch E)
  | .branch b => some b
  | _ => none

section
variable (call : SliceCall E) (inputHarnessConstraints : List E)

def SliceCall.assumptions : List E :=
  (actionsOf call call.slice inputHarnessConstraints).filterMap SliceAction.assumption?

def SliceCall.branches :
    List (SliceBranch E) :=
  (actionsOf call call.slice inputHarnessConstraints).filterMap SliceAction.branch?

end

/-- `pending` are the paths that are instantiated and not processed, `assumptions` those that
were recorded. -/
structure Exploration (E : Type) where
  pm : PathManager E
  pending : List (QueuedPathConstraint E)
  assumptions : List E

/-- A slice is processed for the input that was run under one of the pending paths. -/
inductive ManagerCall (E I : Type) where
  | processSlice (path : Nat) (input : I) (call : SliceCall E)
  | instantiateNextInput

namespace Exploration

/-- The first run of a region is under no constraint. -/
def init : Exploration E where
  pm := ⟨[], [], [], [], 0⟩
  pending := [⟨(PathConstraintBuilder.empty T).pc, HBGraph.empty, 0⟩]
  assumptions := []

def step (inputHarnessConstraints : List E) (s : Exploration E) :
    ManagerCall E I → Option (Exploration E)
  | .processSlice path _ call =>
    if path < s.pending.length then
      some
        { pm := s.pm.processSlice T inputHarnessConstraints call
          pending := s.pending.eraseIdx path
          assumptions := s.assumptions ++ call.assumptions inputHarnessConstraints }
    else none
  | .instantiateNextInput =>
    match s.pm.instantiateNextInput with
    | none => none
    | some (next, pm) => some { s with pm := pm, pending := s.pending ++ [next] }

end Exploration

end

end InputCovSched
