import InputCovSched.Klee.Expr

/-!
# The folding constructors (`create` in `lib/Expr/Expr.cpp`)

One definition for each `create`, under the asserts on the widths; `bcreateR` is the macro that
chooses between `createPartialR` and `createPartial`.

`create` calls itself on results of `create`, so not every recursion is on a smaller
expression: `AddExpr::create(k, AddExpr::create(a, b))` is written with `addConst`, which is
`AddExpr::create` of a constant (`addCreate_constant`), and `ExtractExpr::create` and
`ConcatExpr::create` are tied together over a bound, the size of the operand: the extracts that are
merged are of its parts.
-/

namespace InputCovSched.Klee

namespace Expr

def asConstant : Expr → Option ((w : Nat) × BitVec w)
  | constant w v => some ⟨w, v⟩
  | _ => none

def boolExpr (b : Bool) : Expr := constant 1 (BitVec.ofBool b)

end Expr

open Klee.Expr

def isTrueBits {w : Nat} (v : BitVec w) : Bool := v.toNat == 1

def bcreateR (op : BinaryOp) (partialR partialL : (w : Nat) → BitVec w → Expr → Expr)
    (create : Expr → Expr → Expr) (l r : Expr) : Expr :=
  match l.asConstant, r.asConstant with
  | some ⟨w, a⟩, some ⟨_, b⟩ => constant w (op.apply a (b.setWidth w))
  | some ⟨w, a⟩, none => partialR w a r
  | none, some ⟨w, b⟩ => partialL w b l
  | none, none => create l r

def bcreate (op : BinaryOp) (create : Expr → Expr → Expr) (l r : Expr) : Expr :=
  match l.asConstant, r.asConstant with
  | some ⟨w, a⟩, some ⟨_, b⟩ => constant w (op.apply a (b.setWidth w))
  | _, _ => create l r

def cmpcreate (op : CmpOp) (create : Expr → Expr → Expr) (l r : Expr) : Expr :=
  match l.asConstant, r.asConstant with
  | some ⟨w, a⟩, some ⟨_, b⟩ => boolExpr (op.holds a (b.setWidth w))
  | _, _ => create l r

/-! ## And, Or -/

/-- The terms that `ExprNaryIterator` visits. -/
def Expr.naryTerms (op : BinaryOp) : Expr → List Expr
  | binary op' l r => if op' = op then l :: r.naryTerms op else [binary op' l r]
  | e => [e]

def isNegationPartial (l r : Expr) : Bool := l == .cmp .eq falseExpr r

def isNegation (l r : Expr) : Bool := isNegationPartial l r || isNegationPartial r l

/-- The loops of `AndExpr_create` and `OrExpr_create`: the first term that is `l` or its
negation decides. -/
def absorb (op : BinaryOp) (onNegation l r : Expr) : Option Expr :=
  (r.naryTerms op).findSome? fun term =>
    if l = term then some r else if isNegation l term then some onNegation else none

def absorbCreate (op : BinaryOp) (onNegation l r : Expr) : Expr :=
  if l.width = 1 then (absorb op onNegation l r).getD (binary op l r) else binary op l r

def andPartial (w : Nat) (c : BitVec w) (l : Expr) : Expr :=
  if c = BitVec.allOnes w then l
  else if c = 0 then constant w c
  else binary .and l (constant w c)

def orPartial (w : Nat) (c : BitVec w) (l : Expr) : Expr :=
  if c = BitVec.allOnes w then constant w c
  else if c = 0 then l
  else binary .or l (constant w c)

def andCreate : Expr → Expr → Expr
  | binary .and a b, r =>
    -- (a&b)&c = a&(b&c)
    bcreateR .and andPartial andPartial (fun _ r => andCreate a (andCreate b r)) (binary .and a b) r
  | l, r => bcreateR .and andPartial andPartial (absorbCreate .and falseExpr) l r

def orCreate : Expr → Expr → Expr
  | binary .or a b, r =>
    bcreateR .or orPartial orPartial (fun _ r => orCreate a (orCreate b r)) (binary .or a b) r
  | l, r => bcreateR .or orPartial orPartial (absorbCreate .or trueExpr) l r

/-! ## Eq -/

/-- `EqExpr_isNeq`: `a+k != a`, for any constant. -/
def isNeq (l r : Expr) : Bool :=
  match l with
  | binary .add k x => k.isConstant && x == r
  | _ => false

/-- `EqExpr_create`. -/
def eqAlloc (l r : Expr) : Expr :=
  if l = r then trueExpr
  else if isNeq l r || isNeq r l then falseExpr
  else .cmp .eq l r

def eqPartialR (w : Nat) (c : BitVec w) (r : Expr) : Expr :=
  if w = 1 then
    if isTrueBits c then r
    else
      match r with
      -- 0 == (0 == A) => A
      | .cmp .eq k a => if k = falseExpr then a else eqAlloc (constant w c) (.cmp .eq k a)
      -- not(or(a,b)) to and(not a, not b)
      | binary .or a b =>
        andCreate
          (match a.asConstant with
          | some ⟨_, v⟩ => boolExpr (v == 0)
          | none => eqPartialR a.width 0 a)
          (match b.asConstant with
          | some ⟨_, v⟩ => boolExpr (v == 0)
          | none => eqPartialR b.width 0 b)
      | r => eqAlloc (constant w c) r
  else
    match r with
    | sext src _ =>
      let trunc := c.setWidth src.width
      if c = trunc.signExtend w then
        match src.asConstant with
        | some ⟨_, v⟩ => boolExpr (v.setWidth src.width == trunc)
        | none => eqPartialR src.width trunc src
      else falseExpr
    | zext src _ =>
      let trunc := c.setWidth src.width
      if c = trunc.setWidth w then
        match src.asConstant with
        | some ⟨_, v⟩ => boolExpr (v.setWidth src.width == trunc)
        | none => eqPartialR src.width trunc src
      else falseExpr
    -- c0 = c1 + b => c0 - c1 = b
    | binary .add (constant _ k) b => eqPartialR w (c - k.setWidth w) b
    -- c0 = c1 - b => c1 - c0 = b
    | binary .sub (constant _ k) b => eqPartialR w (k.setWidth w - c) b
    | r => eqAlloc (constant w c) r

def eqCreate (l r : Expr) : Expr :=
  match l.asConstant, r.asConstant with
  | some ⟨w, a⟩, some ⟨_, b⟩ => boolExpr (CmpOp.eq.holds a (b.setWidth w))
  | some ⟨w, a⟩, none => eqPartialR w a r
  | none, some ⟨w, b⟩ => eqPartialR w b l
  | none, none => eqAlloc l r

def createIsZero (e : Expr) : Expr := eqCreate e (constant e.width 0)

def neCreate (l r : Expr) : Expr := eqCreate falseExpr (eqCreate l r)

/-! ## Add, Sub, Mul, Xor -/

def xorPartialR (w : Nat) (c : BitVec w) (r : Expr) : Expr :=
  if c = 0 then r
  else if w = 1 then eqPartialR 1 0 r
  else binary .xor (constant w c) r

def xorCreate (l r : Expr) : Expr := bcreateR .xor xorPartialR xorPartialR (binary .xor) l r

mutual

def addPartialR (w : Nat) (c : BitVec w) (r : Expr) : Expr :=
  if w = 1 then xorPartialR w c r
  else if c = 0 then r
  else
    match r with
    -- A + (B+c) == (A+B) + c
    | binary .add (constant _ k) x =>
      match x.asConstant with
      | some ⟨_, v⟩ => constant w (c + k.setWidth w + v.setWidth w)
      | none => addPartialR w (c + k.setWidth w) x
    -- A + (B-c) == (A+B) - c
    | binary .sub (constant _ k) x =>
      match x.asConstant with
      | some ⟨_, v⟩ => constant w (c + k.setWidth w - v.setWidth w)
      | none => subPartialR w (c + k.setWidth w) x
    | r => binary .add (constant w c) r

def subPartialR (w : Nat) (c : BitVec w) (r : Expr) : Expr :=
  if w = 1 then xorPartialR w c r
  else
    match r with
    -- A - (B+c) == (A-B) - c
    | binary .add (constant _ k) x =>
      match x.asConstant with
      | some ⟨_, v⟩ => constant w (c - k.setWidth w - v.setWidth w)
      | none => subPartialR w (c - k.setWidth w) x
    -- A - (B-c) == (A-B) + c
    | binary .sub (constant _ k) x =>
      match x.asConstant with
      | some ⟨_, v⟩ => constant w (c - k.setWidth w + v.setWidth w)
      | none => addPartialR w (c - k.setWidth w) x
    | r => binary .sub (constant w c) r

end

/-- `AddExpr::create` with a constant on the left. -/
def addConst (w : Nat) (c : BitVec w) (r : Expr) : Expr :=
  match r.asConstant with
  | some ⟨_, v⟩ => constant w (c + v.setWidth w)
  | none => addPartialR w c r

/-- `SubExpr::create` with a constant on the left. -/
def subConst (w : Nat) (c : BitVec w) (r : Expr) : Expr :=
  match r.asConstant with
  | some ⟨_, v⟩ => constant w (c - v.setWidth w)
  | none => subPartialR w c r

def subByConst (l : Expr) (w : Nat) (c : BitVec w) : Expr :=
  match l.asConstant with
  | some ⟨w', v⟩ => constant w' (v - c.setWidth w')
  | none => addPartialR w (0 - c) l

mutual

def addCreate (l r : Expr) : Expr :=
  match l.asConstant, r.asConstant with
  | some ⟨w, a⟩, _ => addConst w a r
  | none, some ⟨w, b⟩ => addPartialR w b l
  | none, none =>
    if l.width = 1 then binary .xor l r
    else
      match l, r with
      -- (k+a)+b = k+(a+b)
      | binary .add (constant w k) a, r => addConst w k (addCreate a r)
      -- (k-a)+b = k+(b-a)
      | binary .sub (constant w k) a, r => addConst w k (subCreate r a)
      -- a + (k+b) = k+(a+b)
      | l, binary .add (constant w k) b => addConst w k (addCreate l b)
      -- a + (k-b) = k+(a-b)
      | l, binary .sub (constant w k) b => addConst w k (subCreate l b)
      | l, r => binary .add l r
termination_by sizeOf l + sizeOf r

def subCreate (l r : Expr) : Expr :=
  match l.asConstant, r.asConstant with
  | some ⟨w, a⟩, _ => subConst w a r
  | none, some ⟨w, b⟩ => subByConst l w b
  | none, none =>
    if l.width = 1 then binary .xor l r
    else if l = r then constant l.width 0
    else
      match l, r with
      -- (k+a)-b = k+(a-b)
      | binary .add (constant w k) a, r => addConst w k (subCreate a r)
      -- (k-a)-b = k-(a+b)
      | binary .sub (constant w k) a, r => subConst w k (addCreate a r)
      -- a - (k+b) = (a-c) - k
      | l, binary .add (constant w k) b => subByConst (subCreate l b) w k
      -- a - (k-b) = (a+b) - k
      | l, binary .sub (constant w k) b => subByConst (addCreate l b) w k
      | l, r => binary .sub l r
termination_by sizeOf l + sizeOf r

end

def mulPartialR (w : Nat) (c : BitVec w) (r : Expr) : Expr :=
  if w = 1 then andPartial w c r
  else if c = 1 then r
  else if c = 0 then constant w c
  else binary .mul (constant w c) r

def mulCreate (l r : Expr) : Expr :=
  bcreateR .mul mulPartialR mulPartialR
    (fun l r => if l.width = 1 then binary .and l r else binary .mul l r) l r

/-! ## Division and shifts -/

/-- Of a boolean by a divisor that must be 1. -/
def divCreate (op : BinaryOp) (l r : Expr) : Expr :=
  bcreate op (fun l r => if l.width = 1 then l else binary op l r) l r

def remCreate (op : BinaryOp) (l r : Expr) : Expr :=
  bcreate op (fun l r => if l.width = 1 then falseExpr else binary op l r) l r

def udivCreate := divCreate .udiv
def sdivCreate := divCreate .sdiv
def uremCreate := remCreate .urem
def sremCreate := remCreate .srem

/-- Of a boolean: l & !r. -/
def shiftCreate (op : BinaryOp) (l r : Expr) : Expr :=
  bcreate op (fun l r => if l.width = 1 then andCreate l (createIsZero r) else binary op l r) l r

def shlCreate := shiftCreate .shl
def lshrCreate := shiftCreate .lshr

def ashrCreate (l r : Expr) : Expr :=
  bcreate .ashr (fun l r => if l.width = 1 then l else binary .ashr l r) l r

/-! ## Select, Concat, Extract, casts -/

def selectCreate (c t f : Expr) : Expr :=
  match c.asConstant with
  | some ⟨_, v⟩ => if isTrueBits v then t else f
  | none =>
    if t = f then t
    else if t.width = 1 then
      -- c ? t : f  <=> (c and t) or (not c and f)
      match t.asConstant, f.asConstant with
      | some ⟨_, v⟩, _ => if isTrueBits v then orCreate c f else andCreate (createIsZero c) f
      | none, some ⟨_, v⟩ => if isTrueBits v then orCreate (createIsZero c) t else andCreate c t
      | none, none => select c t f
    else select c t f

/-- `ZExtExpr::create` to a width that is not smaller. -/
def zextWiden (e : Expr) (w : Nat) : Expr :=
  if w = e.width then e
  else
    match e with
    | constant _ v => constant w (v.setWidth w)
    | zext src _ => zext src w
    | e => zext e w

/-- `ConcatExpr::create`, with `ExtractExpr::create` for merged extracts. -/
def concatWith (extractCreate : Expr → Nat → Nat → Expr) (l r : Expr) : Expr :=
  match l with
  -- unbalanced to the right
  | concat a b => concatWith extractCreate a (concatWith extractCreate b r)
  | constant lw a =>
    match r.asConstant with
    | some ⟨rw, b⟩ => constant (lw + rw) (a ++ b)
    | none =>
      -- concat 0 x -> zext x
      if a = 0 then zextWiden r (lw + r.width) else concat (constant lw a) r
  | extract e offset w =>
    match r with
    | extract e' offset' w' =>
      -- contiguous extracts
      if e = e' ∧ offset' + w' = offset then extractCreate e offset' (w + w')
      else concat (extract e offset w) (extract e' offset' w')
    | r => concat (extract e offset w) r
  | select c t f =>
    match r with
    | select c' t' f' =>
      if c = c' then
        selectCreate c (concatWith extractCreate t t') (concatWith extractCreate f f')
      else concat (select c t f) (select c' t' f')
    | r => concat (select c t f) r
  | l => concat l r

/-- `ExtractExpr::create`; `bound` is at least the size of `e`. -/
def extractBounded (bound : Nat) (e : Expr) (offset w : Nat) : Expr :=
  if w = e.width then e
  else
    match e, bound with
    | constant _ v, _ => constant w ((v.sshiftRight offset).setWidth w)
    | concat x y, n + 1 =>
      if y.width ≤ offset then extractBounded n x (offset - y.width) w
      else if offset + w ≤ y.width then extractBounded n y offset w
      else
        concatWith (extractBounded n) (extractBounded n x 0 (w + offset - y.width))
          (extractBounded n y offset (y.width - offset))
    | zext src width, _ =>
      if offset = 0 ∧ w = src.width then src
      else if src.width ≤ offset then constant w 0
      else extract (zext src width) offset w
    | e, _ => extract e offset w

def Expr.size : Expr → Nat
  | constant _ _ => 1
  | notOptimized e => e.size + 1
  | read _ index => index.size + 1
  | select c t f => c.size + t.size + f.size + 1
  | concat l r => l.size + r.size + 1
  | extract e _ _ => e.size + 1
  | zext e _ => e.size + 1
  | sext e _ => e.size + 1
  | .not e => e.size + 1
  | binary _ l r => l.size + r.size + 1
  | .cmp _ l r => l.size + r.size + 1
  | implies l r => l.size + r.size + 1
  | qvar _ _ => 1
  | all _ _ e => e.size + 1

def extractCreate (e : Expr) (offset w : Nat) : Expr := extractBounded e.size e offset w

def concatCreate (l r : Expr) : Expr := concatWith extractCreate l r

def zextCreate (e : Expr) (w : Nat) : Expr :=
  if w = e.width then e
  else if w < e.width then extractCreate e 0 w
  else zextWiden e w

def sextCreate (e : Expr) (w : Nat) : Expr :=
  if w = e.width then e
  else if w < e.width then extractCreate e 0 w
  else
    match e with
    | constant _ v => constant w (v.signExtend w)
    | e => sext e w

def notCreate : Expr → Expr
  | constant w v => constant w (~~~ v)
  | e => .not e

/-! ## Comparisons -/

def ultCreate (l r : Expr) : Expr :=
  cmpcreate .ult
    (fun l r => if l.width = 1 then andCreate (createIsZero l) r else .cmp .ult l r) l r

def uleCreate (l r : Expr) : Expr :=
  cmpcreate .ule
    (fun l r => if l.width = 1 then orCreate (createIsZero l) r else .cmp .ule l r) l r

def sltCreate (l r : Expr) : Expr :=
  cmpcreate .slt
    (fun l r => if l.width = 1 then andCreate l (createIsZero r) else .cmp .slt l r) l r

def sleCreate (l r : Expr) : Expr :=
  cmpcreate .sle
    (fun l r => if l.width = 1 then orCreate l (createIsZero r) else .cmp .sle l r) l r

def impliesCreate (hyp conc : Expr) : Expr :=
  match hyp.asConstant, conc.asConstant with
  | some ⟨_, v⟩, _ => if isTrueBits v then conc else trueExpr
  | none, some ⟨_, v⟩ => if isTrueBits v then trueExpr else createIsZero hyp
  | none, none => implies hyp conc

/-! ## All of them -/

def binaryCreate : BinaryOp → Expr → Expr → Expr
  | .add => addCreate
  | .sub => subCreate
  | .mul => mulCreate
  | .udiv => udivCreate
  | .sdiv => sdivCreate
  | .urem => uremCreate
  | .srem => sremCreate
  | .and => andCreate
  | .or => orCreate
  | .xor => xorCreate
  | .shl => shlCreate
  | .lshr => lshrCreate
  | .ashr => ashrCreate

def cmpCreate : CmpOp → Expr → Expr → Expr
  | .eq => eqCreate
  | .ne => neCreate
  | .ult => ultCreate
  | .ule => uleCreate
  | .ugt => fun l r => ultCreate r l
  | .uge => fun l r => uleCreate r l
  | .slt => sltCreate
  | .sle => sleCreate
  | .sgt => fun l r => sltCreate r l
  | .sge => fun l r => sleCreate r l

/-- An operator with its operands: what `createFromKind` is called with, and `Extract` and
`Not`. -/
inductive Operation where
  | notOptimized (src : Expr)
  | select (cond trueExpr falseExpr : Expr)
  | concat (left right : Expr)
  | extract (expr : Expr) (offset width : Nat)
  | zext (src : Expr) (width : Nat)
  | sext (src : Expr) (width : Nat)
  | not (expr : Expr)
  | binary (op : BinaryOp) (left right : Expr)
  | cmp (op : CmpOp) (left right : Expr)
  | implies (left right : Expr)

namespace Operation

def operands : Operation → List Expr
  | notOptimized e | extract e _ _ | zext e _ | sext e _ | not e => [e]
  | select c t f => [c, t, f]
  | concat l r | binary _ l r | cmp _ l r | implies l r => [l, r]

def map (g : Expr → Expr) : Operation → Operation
  | notOptimized e => notOptimized (g e)
  | select c t f => select (g c) (g t) (g f)
  | concat l r => concat (g l) (g r)
  | extract e offset w => extract (g e) offset w
  | zext e w => zext (g e) w
  | sext e w => sext (g e) w
  | not e => not (g e)
  | binary op l r => binary op (g l) (g r)
  | cmp op l r => cmp op (g l) (g r)
  | implies l r => implies (g l) (g r)

def plain : Operation → Expr
  | notOptimized e => .notOptimized e
  | select c t f => .select c t f
  | concat l r => .concat l r
  | extract e offset w => .extract e offset w
  | zext e w => .zext e w
  | sext e w => .sext e w
  | not e => .not e
  | binary op l r => .binary op l r
  | cmp op l r => .cmp op l r
  | implies l r => .implies l r

def create : Operation → Expr
  | notOptimized e => .notOptimized e
  | select c t f => selectCreate c t f
  | concat l r => concatCreate l r
  | extract e offset w => extractCreate e offset w
  | zext e w => zextCreate e w
  | sext e w => sextCreate e w
  | not e => notCreate e
  | binary op l r => binaryCreate op l r
  | cmp op l r => cmpCreate op l r
  | implies l r => impliesCreate l r

end Operation

end InputCovSched.Klee
