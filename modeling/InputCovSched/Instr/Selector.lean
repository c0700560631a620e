import InputCovSched.Instr.Expr
import InputCovSched.Instr.ScheduleTrie

/-!
# The schedule selector (`Instrumentor::BuildScheduleSelector`)

The instrumentor compiles each node of a schedule tree to a function that tests the edges
of the node and returns a fragment. The code is a tree of blocks over registers that are
assigned once. A register that no executed instruction has assigned has no value, so reading it
makes the execution `none`: that is what the environment's cache of reads must avoid.

A read of a symbolic object is one instruction here; it returns the bytes of the input.
The division by zero and the shift by more than the width, which LLVM leaves undefined, have
the value the expression has.
-/

namespace InputCovSched

/-! ## The generated code -/

inductive Val where
  | const (value width : Nat)
  | reg (r : Nat)
  deriving DecidableEq, Repr

inductive Rhs where
  | not (width : Nat) (v : Val)
  | cast (op : CastOp) (src dst : Nat) (v : Val)
  | trunc (src dst : Nat) (v : Val)
  | cmp (op : CmpOp) (width : Nat) (left right : Val)
  | binary (op : BinaryOp) (width : Nat) (left right : Val)
  | select (cond ifTrue ifFalse : Val)
  /-- what `BuildSymbolicRead` emits for the expression -/
  | read (expr : Expr)
  deriving DecidableEq, Repr

/-- Code that leaves for one of two blocks, the success block or the other. -/
inductive Code where
  | goto (success : Bool)
  | branch (truth : Val)
  | assign (dst : Nat) (rhs : Rhs) (rest : Code)
  /-- `test` with code for its two blocks -/
  | cond (test onSuccess onFail : Code)
  /-- `test` with two blocks that meet in a block that begins with a phi node -/
  | phi (dst : Nat) (test trueBlock : Code) (ifTrue : Val) (falseBlock : Code) (ifFalse : Val)
      (rest : Code)
  deriving DecidableEq, Repr

abbrev Regs := Nat → Option Nat

def Regs.set (R : Regs) (r value : Nat) : Regs := fun r' => if r' = r then some value else R r'

def Val.eval (R : Regs) : Val → Option Nat
  | const v w => some (v % 2 ^ w)
  | reg r => R r

def Rhs.eval (input : Valuation) (R : Regs) : Rhs → Option Nat
  | not w v => (v.eval R).map (notEval w)
  | cast op src dst v => (v.eval R).map (op.eval src dst)
  | trunc src dst v => (v.eval R).map fun a => ((BitVec.ofNat src a).setWidth dst).toNat
  | cmp op w l r => (l.eval R).bind fun a => (r.eval R).map fun b => op.eval w a b
  | binary op w l r => (l.eval R).bind fun a => (r.eval R).map fun b => op.eval w a b
  | select c t f =>
    (c.eval R).bind fun a => (t.eval R).bind fun b => (f.eval R).map fun d =>
      if a % 2 = 1 then b else d
  | read e => some (e.eval input)

/-- The block the code leaves for, and the registers then. -/
def Code.exec (input : Valuation) : Code → Regs → Option (Bool × Regs)
  | goto success, R => some (success, R)
  | branch v, R => (v.eval R).map fun a => (decide (a % 2 = 1), R)
  | assign dst rhs rest, R =>
    match rhs.eval input R with
    | none => none
    | some a => rest.exec input (R.set dst a)
  | cond test onSuccess onFail, R =>
    match test.exec input R with
    | none => none
    | some (true, R') => onSuccess.exec input R'
    | some (false, R') => onFail.exec input R'
  | phi dst test trueBlock ifTrue falseBlock ifFalse rest, R =>
    match test.exec input R with
    | none => none
    | some (true, R') =>
      match trueBlock.exec input R' with
      | none => none
      | some (_, R₁) =>
        match ifTrue.eval R₁ with
        | none => none
        | some a => rest.exec input (R₁.set dst a)
    | some (false, R') =>
      match falseBlock.exec input R' with
      | none => none
      | some (_, R₁) =>
        match ifFalse.eval R₁ with
        | none => none
        | some a => rest.exec input (R₁.set dst a)

/-! ## The environment -/

structure EvalEnv where
  constraints : List Expr
  cachedReads : List (Expr × Val)

namespace EvalEnv

def addConstraint (env : EvalEnv) (cond : Expr) : EvalEnv :=
  { env with constraints := cond :: env.constraints }

def cloneTrue (env : EvalEnv) (cond : Expr) : EvalEnv := env.addConstraint cond

def cloneFalse (ops : ExprOps) (env : EvalEnv) (cond : Expr) : EvalEnv :=
  env.addConstraint (ops.createIsZero cond)

/-- `none` when the condition must be true, and when the query fails. -/
def cloneFalseCanFail (ops : ExprOps) (S : TimingSolver) (env : EvalEnv) (cond : Expr) :
    Option EvalEnv :=
  match S.mayBeTrue env.constraints (ops.createIsZero cond) with
  | some true => some (env.addConstraint (ops.createIsZero cond))
  | _ => none

def checkValidity (S : TimingSolver) (env : EvalEnv) (cond : Expr) : Validity :=
  match S.evaluate env.constraints cond with
  | some res => res
  | none => .unknown

def addCachedRead (env : EvalEnv) (e : Expr) (v : Val) : EvalEnv :=
  { env with cachedReads := (e, v) :: env.cachedReads }

def lookupCachedRead (env : EvalEnv) (e : Expr) : Option Val := env.cachedReads.lookup e

end EvalEnv

/-! ## The generator -/

structure Emit where
  code : Code → Code
  val : Val
  env : EvalEnv
  next : Nat

structure EmitTest where
  code : Code
  env : EvalEnv
  next : Nat

def Emit.emit (m : Emit) (rhs : Rhs) : Emit where
  code := fun rest => m.code (.assign m.next rhs rest)
  val := .reg m.next
  env := m.env
  next := m.next + 1

def Emit.seq (left right : Emit) : Emit :=
  { right with code := fun rest => left.code (right.code rest) }

def Emit.branch (m : Emit) : EmitTest where
  code := m.code (.branch m.val)
  env := m.env
  next := m.next

def Emit.phi (test : EmitTest) (ifTrue ifFalse : Emit) : Emit where
  code := fun rest => .phi ifFalse.next test.code (ifTrue.code (.goto true)) ifTrue.val
    (ifFalse.code (.goto true)) ifFalse.val rest
  val := .reg ifFalse.next
  env := test.env
  next := ifFalse.next + 1

def buildSymbolicRead (expr : Expr) (env : EvalEnv) (n : Nat) : Emit :=
  match env.lookupCachedRead expr with
  | some v => ⟨id, v, env, n⟩
  | none =>
    let final := Emit.emit ⟨id, .const 0 0, env, n⟩ (.read expr)
    { final with env := env.addCachedRead expr final.val }

section
variable (ops : ExprOps) (S : TimingSolver)

mutual

/-- `none` when `fuel` is used up. -/
def buildExprEvaluator : (fuel : Nat) → Expr → EvalEnv → (n : Nat) → Option Emit
  | 0, _, _, _ => none
  | fuel + 1, expr, env, n =>
    match expr with
    | .constant v w => some ⟨id, .const v w, env, n⟩
    | .not e => do
      let right ← buildExprEvaluator fuel e env n
      some (right.emit (.not e.width right.val))
    | .cast op src width => do
      let right ← buildExprEvaluator fuel src env n
      some (right.emit (.cast op src.width width right.val))
    | .cmp op l r => do
      let left ← buildExprEvaluator fuel l env n
      let right ← buildExprEvaluator fuel r left.env left.next
      some ((left.seq right).emit (.cmp op l.width left.val right.val))
    | .implies l r => buildExprEvaluator fuel (ops.selectCreate l r .trueExpr) env n
    | .binary op l r => do
      let left ← buildExprEvaluator fuel l env n
      let right ← buildExprEvaluator fuel r left.env left.next
      some ((left.seq right).emit (.binary op l.width left.val right.val))
    | .select c t f =>
      if t.isConstant ∧ f.isConstant then do
        let cond ← buildExprEvaluator fuel c env n
        let ifTrue ← buildExprEvaluator fuel t cond.env cond.next
        let ifFalse ← buildExprEvaluator fuel f ifTrue.env ifTrue.next
        some (((cond.seq ifTrue).seq ifFalse).emit (.select cond.val ifTrue.val ifFalse.val))
      else
        match env.checkValidity S c with
        | .mustBeTrue => buildExprEvaluator fuel t env n
        | .mustBeFalse => buildExprEvaluator fuel f env n
        | .unknown => do
          let test ← buildBooleanEvaluator fuel c env n
          let ifTrue ← buildExprEvaluator fuel t (test.env.cloneTrue c) test.next
          let ifFalse ← buildExprEvaluator fuel f (test.env.cloneFalse ops c) ifTrue.next
          some (Emit.phi test ifTrue ifFalse)
    | .extract e offset width => do
      let right ← buildExprEvaluator fuel e env n
      let right' := if offset > 0 then
          right.emit (.binary .lshr e.width right.val (.const offset e.width)) else right
      some (right'.emit (.trunc e.width width right'.val))
    | .read array index => some (buildSymbolicRead (.read array index) env n)
    | .concat l r =>
      if ops.hasOrderedReads (.concat l r) then some (buildSymbolicRead (.concat l r) env n)
      else do
        let left ← buildExprEvaluator fuel l env n
        let right ← buildExprEvaluator fuel r left.env left.next
        let ty := (Expr.concat l r).width
        let left' := (left.seq right).emit (.cast .zext l.width ty left.val)
        let right' := left'.emit (.cast .zext r.width ty right.val)
        let shifted := right'.emit (.binary .shl ty left'.val (.const r.width ty))
        some (shifted.emit (.binary .or ty shifted.val right'.val))

def buildBooleanEvaluator : (fuel : Nat) → Expr → EvalEnv → (n : Nat) → Option EmitTest
  | 0, _, _, _ => none
  | fuel + 1, expr, env, n =>
    if expr.width = 1 then
      match expr with
      | .binary .and l r =>
        match env.checkValidity S l with
        | .mustBeTrue => buildBooleanEvaluator fuel r env n
        | .mustBeFalse => buildBooleanEvaluator fuel .falseExpr env n
        | .unknown => do
          let left ← buildBooleanEvaluator fuel l env n
          let right ← buildBooleanEvaluator fuel r (left.env.cloneTrue l) left.next
          some ⟨.cond left.code right.code (.goto false), left.env, right.next⟩
      | .binary .or l r =>
        match env.checkValidity S l with
        | .mustBeTrue => buildBooleanEvaluator fuel .trueExpr env n
        | .mustBeFalse => buildBooleanEvaluator fuel r env n
        | .unknown => do
          -- `oldenv` is cloned before the left side adds its reads
          let left ← buildBooleanEvaluator fuel l env n
          let right ← buildBooleanEvaluator fuel r (env.cloneFalse ops l) left.next
          some ⟨.cond left.code (.goto true) right.code, left.env, right.next⟩
      | expr =>
        let simplified := ops.simplifyExpr env.constraints expr
        let expr := match env.checkValidity S simplified with
          | .mustBeTrue => .trueExpr
          | .mustBeFalse => .falseExpr
          | .unknown => simplified
        (buildExprEvaluator fuel expr env n).map Emit.branch
    else (buildExprEvaluator fuel expr env n).map Emit.branch

end

def getSummary (terms : List BoolExpr) : Expr :=
  terms.foldr (fun e cond => ops.andCreate e.val cond) .trueExpr

/-- The fragments of a tree are numbered edge by edge; the number stands here as the way to the
edge: `true` into the next node, `false` to the following edge of the node. -/
abbrev FragId := List Bool

/-- The blocks of a selector behind a test. -/
inductive Sel where
  /-- `return &sched` -/
  | ret (fragId : FragId) (schedfrag : ScheduleFragment)
  /-- the failure block -/
  | fail
  | unreachable
  | check (test : Code) (onSuccess onFail : Sel)

def successBlock (id : FragId) (schedfrag : Option ScheduleFragment) (n : Nat)
    (next : Option (Sel × Nat)) : Option (Sel × Nat) :=
  match schedfrag with
  | some f => some (.ret id f, n)
  | none => next

/-- The code for the edges of a node, with the next free register. An edge with a fragment
returns it; its next node gets a selector of its own. All failing tests of an edge's subtree
go to the same failure block. -/
def buildScheduleSelector (fuel : Nat) :
    ScheduleTreeNode BoolExpr → FragId → EvalEnv → (n : Nat) → Option (Sel × Nat)
  | .leaf, _, _, _ => none
  | .edge terms schedfrag next others, id, env, n => do
    let summary := getSummary ops terms
    let test ← buildBooleanEvaluator ops S fuel summary env n
    let (onSuccess, n₁) ← successBlock id schedfrag test.next
      (buildScheduleSelector fuel next (id ++ [true]) test.env test.next)
    match others with
    | .leaf => some (.check test.code onSuccess .fail, n₁)
    | .edge terms' schedfrag' next' others' =>
      match test.env.cloneFalseCanFail ops S summary with
      | none => some (.check test.code onSuccess .unreachable, n₁)
      | some nextEnv => do
        let (onFail, n₂) ←
          buildScheduleSelector fuel (.edge terms' schedfrag' next' others') (id ++ [false])
            nextEnv n₁
        some (.check test.code onSuccess onFail, n₂)

def selectorOf (fuel : Nat) (node : ScheduleTreeNode BoolExpr) : Option Sel :=
  (buildScheduleSelector ops S fuel node [] ⟨[], []⟩ 0).map Prod.fst

end

inductive Selected where
  | returned (fragId : FragId) (schedfrag : ScheduleFragment)
  /-- `_icsPanicNoSched` -/
  | panicNoSched
  /-- an `unreachable` instruction was reached -/
  | undefined

/-- `none`: a register was read that has no value. -/
def Sel.exec (input : Valuation) : Sel → Regs → Option Selected
  | ret id f, _ => some (.returned id f)
  | fail, _ => some .panicNoSched
  | unreachable, _ => some .undefined
  | check test onSuccess onFail, R =>
    match test.exec input R with
    | none => none
    | some (true, R') => onSuccess.exec input R'
    | some (false, R') => onFail.exec input R'

def Sel.run (input : Valuation) (sel : Sel) : Option Selected := sel.exec input fun _ => none

def ScheduleTreeNode.edgeAt {E : Type} :
    ScheduleTreeNode E → FragId → Option (List E × ScheduleFragment)
  | .edge terms (some f) _ _, [] => some (terms, f)
  | .edge terms none next _, true :: id => (next.edgeAt id).map fun p => (terms ++ p.1, p.2)
  | .edge _ _ _ others, false :: id => others.edgeAt id
  | _, _ => none

end InputCovSched
