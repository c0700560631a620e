import InputCovSched.Instr.Expr
import Mathlib.Data.BitVec

/-!
# Expressions over arrays with updates (`klee/Expr.h`)

All the classes of `klee::Expr`, with the update lists and the arrays under a read. `eval` is the
value of an expression at a width: the caller asks for the width that the expression has. A
`ConstrainedInitialValues` array is constrained by a formula over its index variable that has
exactly one solution, so its bytes are computed, not looked up.
-/

namespace InputCovSched

/-! ## Operators -/

def BinaryOp.apply {w : Nat} (op : BinaryOp) (x y : BitVec w) : BitVec w :=
  match op with
  | .add => x + y
  | .sub => x - y
  | .mul => x * y
  | .udiv => x.udiv y
  | .sdiv => x.sdiv y
  | .urem => x.umod y
  | .srem => x.srem y
  | .and => x &&& y
  | .or => x ||| y
  | .xor => x ^^^ y
  | .shl => x <<< y
  | .lshr => x >>> y
  | .ashr => x.sshiftRight' y

/-- `UDiv`, `SDiv`, `URem` and `SRem`. -/
def BinaryOp.isDivision : BinaryOp → Bool
  | .udiv | .sdiv | .urem | .srem => true
  | _ => false

def CmpOp.holds {w : Nat} (op : CmpOp) (x y : BitVec w) : Bool :=
  match op with
  | .eq => x == y
  | .ne => x != y
  | .ult => x.ult y
  | .ule => x.ule y
  | .ugt => y.ult x
  | .uge => y.ule x
  | .slt => x.slt y
  | .sle => x.sle y
  | .sgt => y.slt x
  | .sge => y.sle x

end InputCovSched

namespace InputCovSched.Klee

/-! ## Expressions -/

mutual

inductive Expr where
  | constant (width : Nat) (value : BitVec width)
  | notOptimized (src : Expr)
  | read (updates : UpdateList) (index : Expr)
  | select (cond trueExpr falseExpr : Expr)
  | concat (left right : Expr)
  | extract (expr : Expr) (offset width : Nat)
  | zext (src : Expr) (width : Nat)
  | sext (src : Expr) (width : Nat)
  | not (expr : Expr)
  | binary (op : BinaryOp) (left right : Expr)
  | cmp (op : CmpOp) (left right : Expr)
  | implies (left right : Expr)
  | qvar (name width : Nat)
  /-- `Forall`, over the values of the variable of this width -/
  | all (name width : Nat) (expr : Expr)

inductive UpdateList where
  | root (array : KleeArray)
  /-- a write of one byte, if the guard holds -/
  | byteUpdate (index value guard : Expr) (next : UpdateList)
  /-- all bytes from another array, if the guard holds -/
  | multiUpdate (src : KleeArray) (guard : Expr) (next : UpdateList)

inductive KleeArray where
  | symbolic (name : Nat)
  | constantValues (values : List (BitVec 8))
  /-- `ConstrainedInitialValues` with the guard `true` -/
  | function (qvar : Nat) (valueExpr : Expr)
  /-- `ConstrainedInitialValues` with another guard -/
  | guarded (qvar : Nat) (valueExpr guard : Expr) (nextSrc : UpdateList)

end

deriving instance DecidableEq for Expr, UpdateList, KleeArray

namespace Expr

def width : Expr → Nat
  | constant w _ => w
  | notOptimized e => e.width
  | read _ _ => 8
  | select _ t _ => t.width
  | concat l r => l.width + r.width
  | extract _ _ w => w
  | zext _ w => w
  | sext _ w => w
  | not e => e.width
  | binary _ l _ => l.width
  | cmp _ _ _ => 1
  | implies _ _ => 1
  | qvar _ w => w
  | all _ _ _ => 1

def isConstant : Expr → Bool
  | constant _ _ => true
  | _ => false

/-- `Expr::True` and `Expr::False`. -/
def trueExpr : Expr := constant 1 1
def falseExpr : Expr := constant 1 0

end Expr

/-! ## Values -/

/-- What an expression is evaluated under: the bytes of the symbolic arrays, what a read
behind the end of a constant array finds, and the values of the variables in scope. -/
structure Env where
  bytes : Nat → BitVec 32 → BitVec 8
  outside : List (BitVec 8) → BitVec 32 → BitVec 8
  qvars : Nat → Nat

def Env.bind (ρ : Env) (name value : Nat) : Env :=
  { ρ with qvars := Function.update ρ.qvars name value }

/-- A byte of a constant array. -/
def Env.constantByte (ρ : Env) (values : List (BitVec 8)) (i : BitVec 32) : BitVec 8 :=
  values[i.toNat]?.getD (ρ.outside values i)

mutual

def Expr.eval : Expr → Env → (w : Nat) → BitVec w
  | .constant _ v, _, w => v.setWidth w
  | .notOptimized e, ρ, w => e.eval ρ w
  | .read updates index, ρ, w => (updates.byteAt ρ (index.eval ρ 32)).setWidth w
  | .select c t f, ρ, w => if c.eval ρ 1 = 1 then t.eval ρ w else f.eval ρ w
  | .concat l r, ρ, w => (l.eval ρ l.width ++ r.eval ρ r.width).setWidth w
  | .extract e offset width, ρ, w => ((e.eval ρ e.width).extractLsb' offset width).setWidth w
  | .zext e width, ρ, w => ((e.eval ρ e.width).setWidth width).setWidth w
  | .sext e width, ρ, w => ((e.eval ρ e.width).signExtend width).setWidth w
  | .not e, ρ, w => ~~~ e.eval ρ w
  | .binary op l r, ρ, w => op.apply (l.eval ρ w) (r.eval ρ w)
  | .cmp op l r, ρ, w =>
    (BitVec.ofBool (op.holds (l.eval ρ l.width) (r.eval ρ l.width))).setWidth w
  | .implies l r, ρ, w => if l.eval ρ 1 = 1 then r.eval ρ w else (1 : BitVec 1).setWidth w
  | .qvar name _, ρ, w => BitVec.ofNat w (ρ.qvars name)
  | .all name width e, ρ, w =>
    (BitVec.ofBool (decide (∀ x : BitVec width, e.eval (ρ.bind name x.toNat) 1 = 1))).setWidth w

/-- The byte that a read at `i` finds. -/
def UpdateList.byteAt : UpdateList → Env → BitVec 32 → BitVec 8
  | .root array, ρ, i => array.byteAt ρ i
  | .byteUpdate index value guard next, ρ, i =>
    if guard.eval ρ 1 = 1 ∧ index.eval ρ 32 = i then value.eval ρ 8 else next.byteAt ρ i
  | .multiUpdate src guard next, ρ, i =>
    if guard.eval ρ 1 = 1 then src.byteAt ρ i else next.byteAt ρ i

def KleeArray.byteAt : KleeArray → Env → BitVec 32 → BitVec 8
  | .symbolic name, ρ, i => ρ.bytes name i
  | .constantValues values, ρ, i => ρ.constantByte values i
  | .function qvar valueExpr, ρ, i => valueExpr.eval (ρ.bind qvar i.toNat) 8
  | .guarded qvar valueExpr guard nextSrc, ρ, i =>
    if guard.eval (ρ.bind qvar i.toNat) 1 = 1 then valueExpr.eval (ρ.bind qvar i.toNat) 8
    else nextSrc.byteAt ρ i

end

def Expr.Holds (ρ : Env) (e : Expr) : Prop := e.eval ρ 1 = 1

instance (ρ : Env) (e : Expr) : Decidable (e.Holds ρ) := inferInstanceAs (Decidable (_ = _))

/-! ## Widths that fit -/

mutual

/-- What the constructors assert about widths; a cast does not make its operand shorter. -/
def Expr.WellTyped : Expr → Prop
  | .constant w _ => 0 < w
  | .notOptimized e => e.WellTyped
  | .read updates index => updates.WellTyped ∧ index.WellTyped ∧ index.width = 32
  | .select c t f => c.WellTyped ∧ t.WellTyped ∧ f.WellTyped ∧ c.width = 1 ∧ t.width = f.width
  | .concat l r => l.WellTyped ∧ r.WellTyped
  | .extract e offset w => e.WellTyped ∧ 0 < w ∧ offset + w ≤ e.width
  | .zext e w => e.WellTyped ∧ e.width ≤ w
  | .sext e w => e.WellTyped ∧ e.width ≤ w
  | .not e => e.WellTyped
  | .binary _ l r => l.WellTyped ∧ r.WellTyped ∧ l.width = r.width
  | .cmp _ l r => l.WellTyped ∧ r.WellTyped ∧ l.width = r.width
  | .implies l r => l.WellTyped ∧ r.WellTyped ∧ l.width = 1 ∧ r.width = 1
  | .qvar _ w => 0 < w
  | .all _ _ e => e.WellTyped ∧ e.width = 1

def UpdateList.WellTyped : UpdateList → Prop
  | .root array => array.WellTyped
  | .byteUpdate index value guard next =>
    (index.WellTyped ∧ index.width = 32) ∧ (value.WellTyped ∧ value.width = 8) ∧
      (guard.WellTyped ∧ guard.width = 1) ∧ next.WellTyped
  | .multiUpdate src guard next =>
    src.WellTyped ∧ (guard.WellTyped ∧ guard.width = 1) ∧ next.WellTyped

def KleeArray.WellTyped : KleeArray → Prop
  | .symbolic _ => True
  | .constantValues _ => True
  | .function _ valueExpr => valueExpr.WellTyped ∧ valueExpr.width = 8
  | .guarded _ valueExpr guard nextSrc =>
    (valueExpr.WellTyped ∧ valueExpr.width = 8) ∧ (guard.WellTyped ∧ guard.width = 1) ∧
      nextSrc.WellTyped

end

end InputCovSched.Klee
