import InputCovSched.Symbolic.HBGraph

/-!
# Path constraints (`include/ics/PathManager.h`, `include/klee/Constants.h`)

A path constraint keeps the list of all constraints in the order in which they were
encountered, the conjunction of its branch conditions, and a canonical form of that
conjunction: the conditions as a set ordered by `Expr::compare`, simplified and joined again.
`PathConstraintBuilder` builds all of them one condition at a time; they always mean the same
set of inputs (`PathConstraintBuilder.Means`).
-/

namespace InputCovSched

open List

inductive ForkClass where
  | branch
  | faultinj
  | resolveFnPointer
  | schedule
  | scheduleMulti
  | internal
  | assume
  | convertedBranch
  | invariantInternal
  | invariantInternalHidden
  | invariantInput
  | concretizeFp
  | concretizeAddrOnSolverFailure
  | concretizeAddrOnBigSymbolicArray
  | pointerAliasing
  | boundsCheck
  deriving DecidableEq, Repr

namespace ForkClass

/-- The classes below `KLEE_FORK_FIRST_NON_BRANCHING`. -/
def isBranching : ForkClass → Bool
  | .branch | .faultinj | .resolveFnPointer | .schedule | .scheduleMulti | .internal => true
  | _ => false

def isBranchingOrInput (fc : ForkClass) : Bool := fc.isBranching || fc == .invariantInput

def isConcretization : ForkClass → Bool
  | .concretizeFp | .concretizeAddrOnSolverFailure | .concretizeAddrOnBigSymbolicArray => true
  | _ => false

end ForkClass

/-- An entry knows the number of nodes that the graph had when it was generated (0 if
unknown). -/
structure Entry (E : Type) where
  fc : ForkClass
  expr : E
  currHbNodeId : Nat
  deriving DecidableEq, Repr

structure PathConstraint (E : Type) where
  fullSummary : E
  canonical : E
  list : List (Entry E)
  ctxswitches : List Nat

/-- An explored schedule: its path constraint and its graph. -/
structure CoveredSchedule (E : Type) where
  inputConstraint : PathConstraint E
  hbGraph : HBGraph
  exitsProgram : Bool
  id : Nat

/-- What exploration needs of expressions over inputs: how they are built and taken apart, and
that this respects their values. -/
structure ExprTheory (E I : Type) where
  eval : E → I → Bool
  trueExpr : E
  /-- `AndExpr::create` -/
  and : E → E → E
  createIsZero : E → E
  /-- the terms of a disjunction, `none` for other expressions -/
  orTerms : E → Option (List E)
  /-- what a new `ConstraintManager` holds once the expression was added -/
  constraintsOf : E → List E
  /-- `getDependentConstraintsSet`, for a manager that the constraints were added to -/
  dependentConstraints : List E → E → List E
  eval_trueExpr : ∀ y, eval trueExpr y = true
  eval_and : ∀ a b y, eval (and a b) y = (eval a y && eval b y)
  eval_createIsZero : ∀ e y, eval (createIsZero e) y = !eval e y
  eval_orTerms : ∀ e ts, orTerms e = some ts → ∀ y, eval e y = ts.any (eval · y)
  eval_constraintsOf : ∀ e y, (constraintsOf e).all (eval · y) = eval e y

def ExprTheory.sem {E I : Type} (T : ExprTheory E I) (e : E) : Set I := {y | T.eval e y = true}

/-! ## Building a path constraint -/

/-- `fullSummarySet` is sorted by `Expr::compare`. -/
structure PathConstraintBuilder (E : Type) where
  pc : PathConstraint E
  fullSummarySet : List E
  fullCanonical : E
  conciseCanonical : E

section
variable {E I : Type} [LinearOrder E] (T : ExprTheory E I)

def exprSetInsert (set : List E) (e : E) : List E :=
  if e ∈ set then set else set.orderedInsert (· ≤ ·) e

def serializeExprSet (set : List E) : E := set.foldl T.and T.trueExpr

namespace PathConstraintBuilder

def empty : PathConstraintBuilder E where
  pc := ⟨T.trueExpr, T.trueExpr, [], []⟩
  fullSummarySet := []
  fullCanonical := T.trueExpr
  conciseCanonical := T.trueExpr

section
variable (b : PathConstraintBuilder E)

def addToSummary (expr : E) : PathConstraintBuilder E :=
  { b with pc := { b.pc with fullSummary := T.and b.pc.fullSummary expr } }

def addToCanonical (expr : E) : PathConstraintBuilder E :=
  if expr ∈ b.fullSummarySet then b
  else
    let fullSummarySet := exprSetInsert b.fullSummarySet expr
    let fullCanonical := serializeExprSet T fullSummarySet
    let set := (T.constraintsOf fullCanonical).foldl exprSetInsert []
    let conciseCanonical := serializeExprSet T set
    ⟨{ b.pc with canonical := conciseCanonical }, fullSummarySet, fullCanonical, conciseCanonical⟩

def add (expr : E) (currHbNodeId : Nat) :
    PathConstraintBuilder E :=
  let b := addToCanonical T (addToSummary T b expr) expr
  { b with pc := { b.pc with list := b.pc.list ++ [⟨.invariantInput, expr, currHbNodeId⟩] } }

def addExtraInvariant (fc : ForkClass) (expr : E) :
    PathConstraintBuilder E :=
  { b with pc := { b.pc with list := b.pc.list ++ [⟨fc, expr, 0⟩] } }

end

end PathConstraintBuilder

end

/-- Drops the invariants behind the last branch. -/
def PathConstraint.trimExtraInvariants {E : Type} (pc : PathConstraint E) : PathConstraint E :=
  { pc with list := (pc.list.reverse.dropWhile fun e => !e.fc.isBranchingOrInput).reverse }

/-! ## What a path constraint means -/

structure PathConstraint.Ok {E I : Type} (T : ExprTheory E I) (pc : PathConstraint E) : Prop where
  canonical : T.sem pc.canonical = T.sem pc.fullSummary
  inputs : ∀ y, (∀ e ∈ pc.list, e.fc = .invariantInput → y ∈ T.sem e.expr) ↔
    y ∈ T.sem pc.fullSummary

section
variable {E I : Type} {T : ExprTheory E I}

variable {set : List E} {y : I}

lemma mem_exprSetInsert [LinearOrder E] {e : E} : a ∈ exprSetInsert set e ↔ a = e ∨ a ∈ set := by
  unfold exprSetInsert
  split
  · rename_i h
    constructor
    · exact .inr
    · rintro (rfl | ha)
      · exact h
      · exact ha
  · exact mem_orderedInsert _

lemma mem_foldl_exprSetInsert [LinearOrder E] {l : List E} :
    a ∈ l.foldl exprSetInsert set ↔ a ∈ set ∨ a ∈ l := by
  induction l generalizing set with
  | nil => simp
  | cons e l ih =>
    rw [foldl_cons, ih, mem_exprSetInsert, mem_cons]
    constructor
    · rintro ((h | h) | h)
      · exact .inr (.inl h)
      · exact .inl h
      · exact .inr (.inr h)
    · rintro (h | h | h)
      · exact .inl (.inr h)
      · exact .inl (.inl h)
      · exact .inr h

lemma ExprTheory.mem_sem_and : y ∈ T.sem (T.and a b) ↔ y ∈ T.sem a ∧ y ∈ T.sem b := by
  show T.eval _ y = true ↔ _
  rw [T.eval_and, Bool.and_eq_true]
  rfl

lemma mem_sem_foldl_and :
    y ∈ T.sem (set.foldl T.and a) ↔ y ∈ T.sem a ∧ ∀ e ∈ set, y ∈ T.sem e := by
  induction set generalizing a with
  | nil => simp
  | cons e set ih =>
    rw [foldl_cons, ih, ExprTheory.mem_sem_and, forall_mem_cons, and_assoc]

lemma mem_sem_serializeExprSet : y ∈ T.sem (serializeExprSet T set) ↔ ∀ e ∈ set, y ∈ T.sem e := by
  unfold serializeExprSet
  rw [mem_sem_foldl_and]
  exact and_iff_right (T.eval_trueExpr y)

lemma mem_constraintsOf {e : E} : (∀ c ∈ T.constraintsOf e, y ∈ T.sem c) ↔ y ∈ T.sem e := by
  show _ ↔ T.eval e y = true
  rw [← T.eval_constraintsOf, all_eq_true]
  rfl

namespace PathConstraintBuilder

/-- The canonical forms mean the inputs in `S`. -/
structure Canon (T : ExprTheory E I) (b : PathConstraintBuilder E) (S : Set I) : Prop where
  set : ∀ y, (∀ e ∈ b.fullSummarySet, y ∈ T.sem e) ↔ y ∈ S
  full : T.sem b.fullCanonical = S
  concise : T.sem b.conciseCanonical = S
  canonical : b.pc.canonical = b.conciseCanonical

/-- All parts of the builder mean the inputs in `S`. -/
structure Means (T : ExprTheory E I) (b : PathConstraintBuilder E) (S : Set I) : Prop
    extends Canon T b S where
  summary : T.sem b.pc.fullSummary = S
  inputs : ∀ y, (∀ e ∈ b.pc.list, e.fc = .invariantInput → y ∈ T.sem e.expr) ↔ y ∈ S

variable {b : PathConstraintBuilder E} {S : Set I}

lemma means_empty : (empty T).Means T Set.univ := by
  have htrue : T.sem T.trueExpr = Set.univ := Set.eq_univ_of_forall T.eval_trueExpr
  refine ⟨⟨fun y => ?_, htrue, htrue, rfl⟩, htrue, fun y => ?_⟩
  · simp [empty]
  · simp [empty]

lemma Canon.addToCanonical [LinearOrder E] (h : b.Canon T S) (expr : E) :
    (b.addToCanonical T expr).Canon T (S ∩ T.sem expr) := by
  unfold PathConstraintBuilder.addToCanonical
  split
  · rename_i hmem
    -- the condition is there already
    have hS : S ∩ T.sem expr = S := Set.inter_eq_left.2 fun y hy => (h.set y).2 hy expr hmem
    rw [hS]
    exact h
  have hset : ∀ y, (∀ e ∈ exprSetInsert b.fullSummarySet expr, y ∈ T.sem e) ↔
      y ∈ S ∩ T.sem expr := by
    intro y
    simp only [mem_exprSetInsert, forall_eq_or_imp, h.set y, Set.mem_inter_iff, and_comm]
  have hfull : T.sem (serializeExprSet T (exprSetInsert b.fullSummarySet expr)) = S ∩ T.sem expr :=
    Set.ext fun y => mem_sem_serializeExprSet.trans (hset y)
  refine ⟨hset, hfull, ?_, rfl⟩
  rw [← hfull]
  ext y
  rw [mem_sem_serializeExprSet, ← mem_constraintsOf]
  simp only [mem_foldl_exprSetInsert, not_mem_nil, false_or]

lemma add_pc [LinearOrder E] (b : PathConstraintBuilder E) (expr : E) (currHbNodeId : Nat) :
    (b.add T expr currHbNodeId).pc.fullSummary = T.and b.pc.fullSummary expr ∧
      (b.add T expr currHbNodeId).pc.list =
        b.pc.list ++ [⟨.invariantInput, expr, currHbNodeId⟩] := by
  unfold PathConstraintBuilder.add PathConstraintBuilder.addToCanonical
  dsimp only
  split <;> exact ⟨rfl, rfl⟩

lemma Means.add [LinearOrder E] (h : b.Means T S) (expr : E) (currHbNodeId : Nat) :
    (b.add T expr currHbNodeId).Means T (S ∩ T.sem expr) := by
  have hc : (b.addToSummary T expr).Canon T S := ⟨h.set, h.full, h.concise, h.canonical⟩
  have hc := hc.addToCanonical expr
  obtain ⟨hsum, hlist⟩ := add_pc (T := T) b expr currHbNodeId
  refine ⟨⟨hc.set, hc.full, hc.concise, hc.canonical⟩, ?_, fun y => ?_⟩
  · rw [hsum]
    ext y
    rw [ExprTheory.mem_sem_and, h.summary]
    rfl
  · rw [hlist]
    simp only [mem_append, mem_singleton, or_imp, forall_and, forall_eq, h.inputs y,
      forall_const, Set.mem_inter_iff]

lemma Means.addExtraInvariant (h : b.Means T S) (hfc : fc ≠ .invariantInput)
    (expr : E) : (b.addExtraInvariant fc expr).Means T S := by
  refine ⟨⟨h.set, h.full, h.concise, h.canonical⟩, h.summary, fun y => ?_⟩
  rw [← h.inputs y]
  show (∀ e ∈ b.pc.list ++ [⟨fc, expr, 0⟩], _) ↔ _
  constructor
  · intro hall e he
    exact hall e (mem_append_left _ he)
  · intro hall e he hinput
    rcases mem_append.1 he with he | he
    · exact hall e he hinput
    · obtain rfl := mem_singleton.1 he
      exact absurd hinput hfc

lemma Means.ok (h : b.Means T S) : b.pc.Ok T := by
  refine ⟨?_, fun y => ?_⟩
  · rw [h.canonical, h.concise, h.summary]
  · rw [h.inputs y, h.summary]

end PathConstraintBuilder

end

end InputCovSched
