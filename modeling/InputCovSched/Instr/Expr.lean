import Mathlib.Algebra.Order.Ring.Nat

/-!
# Expressions and their values (`klee/Expr.h`)

The expressions that the instrumentor compiles, with their widths and their values for an
input. A value of width `w` is a number below `2 ^ w`. An expression `Holds` when its lowest bit
is set.

`ExprOps` are the functions on expressions that the generator calls, with what it relies on: on
boolean expressions they keep the value. `TimingSolver` is the solver behind an environment.
-/

namespace InputCovSched

open BitVec

inductive CastOp where
  | zext
  | sext
  deriving DecidableEq, Repr

inductive CmpOp where
  | eq
  | ne
  | ult
  | ule
  | ugt
  | uge
  | slt
  | sle
  | sgt
  | sge
  deriving DecidableEq, Repr

inductive BinaryOp where
  | add
  | sub
  | mul
  | udiv
  | sdiv
  | urem
  | srem
  | and
  | or
  | xor
  | shl
  | lshr
  | ashr
  deriving DecidableEq, Repr

open BinaryOp

/-- The classes of `klee::Expr` that `BuildExprEvaluator` handles. -/
inductive Expr where
  | constant (value width : Nat)
  | not (expr : Expr)
  | cast (op : CastOp) (src : Expr) (width : Nat)
  | cmp (op : CmpOp) (left right : Expr)
  /-- the one `SimplifiableBinaryExpr` -/
  | implies (left right : Expr)
  | binary (op : BinaryOp) (left right : Expr)
  | select (cond trueExpr falseExpr : Expr)
  | extract (expr : Expr) (offset width : Nat)
  | read (array : Nat) (index : Expr)
  | concat (left right : Expr)
  deriving DecidableEq, Repr

abbrev Valuation := Nat → Nat → BitVec 8

/-! ## Operators on values of a width -/

def CastOp.eval (op : CastOp) (src dst a : Nat) : Nat :=
  match op with
  | .zext => ((BitVec.ofNat src a).setWidth dst).toNat
  | .sext => ((BitVec.ofNat src a).signExtend dst).toNat

def CmpOp.eval (op : CmpOp) (width a b : Nat) : Nat :=
  let x := BitVec.ofNat width a
  let y := BitVec.ofNat width b
  Bool.toNat <| match op with
    | .eq => x == y
    | .ne => x != y
    | .ult => x.ult y
    | .ule => x.ule y
    | .ugt => y.ult x
    | .uge => y.ule x
    | .slt => x.slt y
    | .sle => x.sle y
    | .sgt => y.slt x
    | .sge => y.sle x

def BinaryOp.eval (op : BinaryOp) (width a b : Nat) : Nat :=
  let x := BitVec.ofNat width a
  let y := BitVec.ofNat width b
  BitVec.toNat <| match op with
    | .add => x + y
    | .sub => x - y
    | .mul => x * y
    | .udiv => x.udiv y
    | .sdiv => x.sdiv y
    | .urem => x.umod y
    | .srem => x.srem y
    | .and => x &&& y
    | .or => x ||| y
    | .xor => x ^^^ y
    | .shl => x <<< y
    | .lshr => x >>> y
    | .ashr => x.sshiftRight' y

def notEval (width a : Nat) : Nat := (~~~ BitVec.ofNat width a).toNat

namespace Expr

def width : Expr → Nat
  | constant _ w => w
  | not e => e.width
  | cast _ _ w => w
  | cmp _ _ _ => 1
  | implies l _ => l.width
  | binary _ l _ => l.width
  | select _ t _ => t.width
  | extract _ _ w => w
  | read _ _ => 8
  | concat l r => l.width + r.width

def eval (input : Valuation) : Expr → Nat
  | constant v w => v % 2 ^ w
  | not e => notEval e.width (e.eval input)
  | cast op e w => op.eval e.width w (e.eval input)
  | cmp op l r => op.eval l.width (l.eval input) (r.eval input)
  | implies l r => if l.eval input % 2 = 1 then r.eval input else 1
  | binary op l r => op.eval l.width (l.eval input) (r.eval input)
  | select c t f => if c.eval input % 2 = 1 then t.eval input else f.eval input
  | extract e offset w =>
    -- the offset is a constant of the width of `e`
    ((BitVec.ofNat e.width (e.eval input)).extractLsb' (offset % 2 ^ e.width) w).toNat
  | read array index => (input array (index.eval input)).toNat
  | concat l r =>
    (BitVec.ofNat l.width (l.eval input) ++ BitVec.ofNat r.width (r.eval input)).toNat

def Holds (input : Valuation) (e : Expr) : Prop := e.eval input % 2 = 1

instance (input : Valuation) (e : Expr) : Decidable (e.Holds input) :=
  inferInstanceAs (Decidable (_ = _))

/-- `Expr::True` and `Expr::False`. -/
def trueExpr : Expr := constant 1 1
def falseExpr : Expr := constant 0 1

def isConstant : Expr → Bool
  | constant _ _ => true
  | _ => false

/-- The widths fit, as the constructors of `klee::Expr` assert. -/
def WellTyped : Expr → Prop
  | constant _ _ => True
  | not e => e.WellTyped
  | cast _ e _ => e.WellTyped
  | cmp _ l r => l.WellTyped ∧ r.WellTyped ∧ l.width = r.width
  | implies l r => l.WellTyped ∧ r.WellTyped ∧ l.width = 1 ∧ r.width = 1
  | binary _ l r => l.WellTyped ∧ r.WellTyped ∧ l.width = r.width
  | select c t f => c.WellTyped ∧ t.WellTyped ∧ f.WellTyped ∧ c.width = 1 ∧ t.width = f.width
  | extract e _ _ => e.WellTyped
  | read _ index => index.WellTyped
  | concat l r => l.WellTyped ∧ r.WellTyped

structure IsBool (e : Expr) : Prop where
  wellTyped : e.WellTyped
  width_eq : e.width = 1

lemma isBool_true : trueExpr.IsBool := ⟨trivial, rfl⟩
lemma isBool_false : falseExpr.IsBool := ⟨trivial, rfl⟩

lemma trueExpr_holds (input : Valuation) : trueExpr.Holds input := rfl
lemma falseExpr_holds (input : Valuation) : ¬ falseExpr.Holds input := by
  simp [Holds, falseExpr, eval]

end Expr

abbrev BoolExpr := { e : Expr // e.IsBool }

def AllHold (input : Valuation) (cs : List Expr) : Prop := ∀ c, c ∈ cs → c.IsBool ∧ c.Holds input

/-- The functions on expressions that the generator calls. -/
structure ExprOps where
  /-- `AndExpr::create` -/
  andCreate : Expr → Expr → Expr
  /-- `SelectExpr::create` -/
  selectCreate : Expr → Expr → Expr → Expr
  createIsZero : Expr → Expr
  /-- `simplifyExpr` of a `ConstraintManager` to which the constraints were added -/
  simplifyExpr : List Expr → Expr → Expr
  hasOrderedReads : Expr → Bool
  andCreate_isBool : ∀ a b, a.IsBool → b.IsBool → (andCreate a b).IsBool
  andCreate_holds : ∀ input a b, a.IsBool → b.IsBool →
    ((andCreate a b).Holds input ↔ a.Holds input ∧ b.Holds input)
  selectCreate_isBool : ∀ c t f, c.IsBool → t.IsBool → f.IsBool → (selectCreate c t f).IsBool
  selectCreate_eval : ∀ input c t f, c.IsBool → t.IsBool → f.IsBool →
    (selectCreate c t f).eval input = if c.Holds input then t.eval input else f.eval input
  createIsZero_isBool : ∀ e, e.IsBool → (createIsZero e).IsBool
  createIsZero_holds : ∀ input e, e.IsBool → ((createIsZero e).Holds input ↔ ¬ e.Holds input)
  simplifyExpr_isBool : ∀ cs e, (∀ c, c ∈ cs → c.IsBool) → e.IsBool → (simplifyExpr cs e).IsBool
  simplifyExpr_eval : ∀ input cs e, AllHold input cs → e.IsBool →
    (simplifyExpr cs e).eval input = e.eval input

/-- `Solver::Validity`. -/
inductive Validity where
  | mustBeTrue
  | mustBeFalse
  | unknown
  deriving DecidableEq, Repr

/-- The answers to a query under constraints, `none` when the query fails. -/
structure TimingSolver where
  evaluate : List Expr → Expr → Option Validity
  mayBeTrue : List Expr → Expr → Option Bool

namespace TimingSolver

structure Sound (S : TimingSolver) : Prop where
  mustBeTrue : ∀ cs e input, S.evaluate cs e = some .mustBeTrue →
    AllHold input cs → e.IsBool → e.Holds input
  mustBeFalse : ∀ cs e input, S.evaluate cs e = some .mustBeFalse →
    AllHold input cs → e.IsBool → ¬ e.Holds input
  mayBeTrue : ∀ cs e input, S.mayBeTrue cs e = some false →
    AllHold input cs → e.IsBool → ¬ e.Holds input

/-- No feasibility query fails. -/
def Answers (S : TimingSolver) : Prop := ∀ cs e, (S.mayBeTrue cs e).isSome = true

end TimingSolver

/-! ## The identities behind the generated code -/

lemma extract_eval (width offset dst a : Nat) :
    ((BitVec.ofNat width a).extractLsb' (offset % 2 ^ width) dst).toNat =
      ((BitVec.ofNat width (lshr.eval width a (offset % 2 ^ width))).setWidth dst).toNat := by
  simp only [eval, BitVec.extractLsb'_toNat, BitVec.toNat_setWidth, BitVec.toNat_ofNat,
    BitVec.ushiftRight_eq', BitVec.toNat_ushiftRight, Nat.mod_mod]
  -- the shifted value fits its width, so the second truncation to it does nothing
  have hle : (a % 2 ^ width) >>> (offset % 2 ^ width) ≤ a % 2 ^ width := by
    rw [Nat.shiftRight_eq_div_pow]
    exact Nat.div_le_self _ _
  have hlt : a % 2 ^ width < 2 ^ width := Nat.mod_lt _ (Nat.two_pow_pos width)
  rw [Nat.mod_eq_of_lt (show (a % 2 ^ width) >>> (offset % 2 ^ width) < 2 ^ width by omega)]

lemma shiftLeft_or_append (x : BitVec wl) (y : BitVec wr) :
    x.setWidth (wl + wr) <<< wr ||| y.setWidth (wl + wr) = x ++ y := by
  ext i hi
  simp only [getElem_or, getElem_shiftLeft, getElem_setWidth, getElem_append]
  by_cases h : i < wr
  · simp [h]
  rw [getLsbD_of_ge y i (by omega)]
  simp only [h, decide_false, Bool.not_false, Bool.true_and, Bool.or_false, dite_false]
  rw [getLsbD_eq_getElem (by omega)]

lemma concat_eval (wl wr a b : Nat) :
    (BitVec.ofNat wl a ++ BitVec.ofNat wr b).toNat =
      or.eval (wl + wr)
        (shl.eval (wl + wr) (CastOp.zext.eval wl (wl + wr) a) (wr % 2 ^ (wl + wr)))
        (CastOp.zext.eval wr (wl + wr) b) := by
  have hlt : wr < 2 ^ (wl + wr) := by
    calc wr < 2 ^ wr := Nat.lt_two_pow_self
      _ ≤ 2 ^ (wl + wr) := Nat.pow_le_pow_right (by omega) (by omega)
  rw [← shiftLeft_or_append]
  simp only [eval, CastOp.eval, BitVec.ofNat_toNat, BitVec.setWidth_eq, Nat.mod_eq_of_lt hlt]
  rw [BitVec.shiftLeft_eq', BitVec.toNat_ofNat, Nat.mod_eq_of_lt hlt]

lemma mod_two_pow_mod_two (hw : 0 < width) (a : Nat) : a % 2 ^ width % 2 = a % 2 :=
  Nat.mod_mod_of_dvd a (dvd_pow_self 2 (by omega))

lemma and_eval_odd (hw : 0 < width) : and.eval width a b % 2 = 1 ↔ a % 2 = 1 ∧ b % 2 = 1 := by
  simp only [eval, toNat_and, toNat_ofNat, Nat.and_mod_two_eq_one, mod_two_pow_mod_two hw]

lemma or_eval_odd (hw : 0 < width) : or.eval width a b % 2 = 1 ↔ a % 2 = 1 ∨ b % 2 = 1 := by
  simp only [eval, toNat_or, toNat_ofNat, Nat.or_mod_two_eq_one, mod_two_pow_mod_two hw]

lemma isZero_eval_odd (a : Nat) : CmpOp.eq.eval 1 a 0 % 2 = 1 ↔ ¬ a % 2 = 1 := by
  have heq : (BitVec.ofNat 1 a == BitVec.ofNat 1 0) = decide (a % 2 = 0) := by
    rw [Bool.eq_iff_iff]
    simp [BitVec.toNat_eq]
  simp only [CmpOp.eval, heq]
  rcases Nat.mod_two_eq_zero_or_one a with h | h <;> simp [h]

end InputCovSched
