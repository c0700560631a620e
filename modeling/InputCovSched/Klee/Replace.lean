import InputCovSched.Klee.OperationSound

/-!
# Rebuilding expressions (`ExprVisitor.cpp`, `ReadExpr::create`, `Array::getValueAtIndex`)

A visitor goes to the kids of a node only: the kid of a read is its index, its updates and its
array stay as they are.

`Clean` is what the expressions of the engine are that `create` has built: no sum with the
constant 0 on its left, no boolean divided, no quantifier, and no variable but the one an array's
value is a function of. Clean expressions stay clean, and keep their values
(`replaceVisit_denotes`, `getValueAtIndex_denotes`).
-/

namespace InputCovSched.Klee

open Klee.Expr

/-! ## Visitors -/

def Operation.rebuild (o : Operation) (e : Expr) : Expr := if o.plain = e then e else o.create

/-- The loop of `ReadExpr::create`, which has come to `u`. A multi-byte node has a guard that is
not constant, as its constructor asserts, so that the loop ends there. -/
def readFrom (whole : UpdateList) (index : Expr) : UpdateList → Expr
  | .root array => read (.root array) index
  | .byteUpdate i value guard next =>
    match (andCreate guard (eqCreate i index)).asConstant with
    | some ⟨_, v⟩ => if isTrueBits v then value else readFrom whole index next
    | none => read whole index
  | .multiUpdate _ _ _ => read whole index

def readCreate (updates : UpdateList) (index : Expr) : Expr := readFrom updates index updates

def findIn (target : Expr) : Expr → Bool
  | constant _ _ => false
  | notOptimized e => notOptimized e == target || findIn target e
  | .read u i => read u i == target || findIn target i
  | select c t f =>
    select c t f == target || findIn target c || findIn target t || findIn target f
  | concat l r => concat l r == target || findIn target l || findIn target r
  | extract e offset w => extract e offset w == target || findIn target e
  | zext e w => zext e w == target || findIn target e
  | sext e w => sext e w == target || findIn target e
  | .not e => .not e == target || findIn target e
  | binary op l r => binary op l r == target || findIn target l || findIn target r
  | .cmp op l r => .cmp op l r == target || findIn target l || findIn target r
  | implies l r => implies l r == target || findIn target l || findIn target r
  | qvar name w => qvar name w == target
  | all name w e => all name w e == target || qvar name w == target || findIn target e

def forallCreate (name w : Nat) (e : Expr) : Expr :=
  if findIn (qvar name w) e then all name w e else e

section Replace

variable (src dst : Expr) (visitPost : Bool)

/-- `visitExpr` before the kids of `e`, `visitExprPost` after they have been rebuilt. -/
def replaceNode (e rebuilt : Expr) : Expr :=
  if e = src then dst
  else if visitPost && !rebuilt.isConstant && rebuilt == src then dst
  else rebuilt

def replaceVisit : Expr → Expr
  | constant w v => constant w v
  | notOptimized e =>
    replaceNode src dst visitPost (notOptimized e)
      ((Operation.notOptimized (replaceVisit e)).rebuild (notOptimized e))
  | .read u i =>
    replaceNode src dst visitPost (read u i)
      (if replaceVisit i = i then read u i else readCreate u (replaceVisit i))
  | select c t f =>
    replaceNode src dst visitPost (select c t f)
      ((Operation.select (replaceVisit c) (replaceVisit t) (replaceVisit f)).rebuild (select c t f))
  | concat l r =>
    replaceNode src dst visitPost (concat l r)
      ((Operation.concat (replaceVisit l) (replaceVisit r)).rebuild (concat l r))
  | extract e offset w =>
    replaceNode src dst visitPost (extract e offset w)
      ((Operation.extract (replaceVisit e) offset w).rebuild (extract e offset w))
  | zext e w =>
    replaceNode src dst visitPost (zext e w) ((Operation.zext (replaceVisit e) w).rebuild (zext e w))
  | sext e w =>
    replaceNode src dst visitPost (sext e w) ((Operation.sext (replaceVisit e) w).rebuild (sext e w))
  | .not e =>
    replaceNode src dst visitPost (.not e) ((Operation.not (replaceVisit e)).rebuild (.not e))
  | binary op l r =>
    replaceNode src dst visitPost (binary op l r)
      ((Operation.binary op (replaceVisit l) (replaceVisit r)).rebuild (binary op l r))
  | .cmp op l r =>
    replaceNode src dst visitPost (.cmp op l r)
      ((Operation.cmp op (replaceVisit l) (replaceVisit r)).rebuild (.cmp op l r))
  | implies l r =>
    replaceNode src dst visitPost (implies l r)
      ((Operation.implies (replaceVisit l) (replaceVisit r)).rebuild (implies l r))
  -- the children of a variable are skipped
  | qvar name w => if qvar name w = src then dst else qvar name w
  -- the bound variable is a kid as well, and is cast to a variable again
  | all name w e =>
    replaceNode src dst visitPost (all name w e)
      (if replaceVisit e = e then all name w e else forallCreate name w (replaceVisit e))

end Replace

def KleeArray.getValueAtIndex (array : KleeArray) (index : Expr) : Expr :=
  match array with
  | .symbolic name => read (.root (.symbolic name)) index
  | .constantValues values =>
    match index.asConstant with
    | some ⟨_, i⟩ =>
      match values[i.toNat]? with
      | some byte => constant 8 byte
      | none => read (.root (.constantValues values)) index
    | none => read (.root (.constantValues values)) index
  | .function q valueExpr => replaceVisit (qvar q 32) index false valueExpr
  | .guarded q valueExpr guard nextSrc =>
    replaceVisit (qvar q 32) index false
      (selectCreate guard valueExpr (readCreate nextSrc index))

/-! ## One view of all nodes -/

def Operation.mapM {m : Type → Type} [Monad m] (g : Expr → m Expr) : Operation → m Operation
  | .notOptimized e => return .notOptimized (← g e)
  | .select c t f => return .select (← g c) (← g t) (← g f)
  | .concat l r => return .concat (← g l) (← g r)
  | .extract e offset w => return .extract (← g e) offset w
  | .zext e w => return .zext (← g e) w
  | .sext e w => return .sext (← g e) w
  | .not e => return .not (← g e)
  | .binary op l r => return .binary op (← g l) (← g r)
  | .cmp op l r => return .cmp op (← g l) (← g r)
  | .implies l r => return .implies (← g l) (← g r)

/-- All nodes with kids, but for reads and quantifiers. -/
def Expr.asOperation : Expr → Option Operation
  | notOptimized e => some (.notOptimized e)
  | select c t f => some (.select c t f)
  | concat l r => some (.concat l r)
  | extract e offset w => some (.extract e offset w)
  | zext e w => some (.zext e w)
  | sext e w => some (.sext e w)
  | .not e => some (.not e)
  | binary op l r => some (.binary op l r)
  | .cmp op l r => some (.cmp op l r)
  | implies l r => some (.implies l r)
  | constant _ _ | .read _ _ | qvar _ _ | all _ _ _ => none

lemma Operation.size_lt {o : Operation} {e : Expr} (he : e ∈ o.operands) :
    e.size < o.plain.size := by
  cases o <;> simp only [operands, List.mem_cons, List.not_mem_nil, or_false] at he <;>
    simp only [plain, Expr.size] <;> grind

@[elab_as_elim]
lemma Expr.operationRec {motive : Expr → Prop} (constant : ∀ w v, motive (constant w v))
    (read : ∀ u i, motive i → motive (read u i))
    (operation : ∀ o : Operation, (∀ e ∈ o.operands, motive e) → motive o.plain)
    (qvar : ∀ name w, motive (qvar name w))
    (all : ∀ name w e, motive e → motive (all name w e)) (e : Expr) : motive e := by
  induction hn : e.size using Nat.strong_induction_on generalizing e with
  | _ n ih =>
    subst hn
    have hop (o : Operation) (ho : o.plain = e) : motive e :=
      ho ▸ operation o fun x hx => ih x.size (ho ▸ o.size_lt hx) x rfl
    cases e with
    | constant w v => exact constant w v
    | read u i => exact read u i (ih i.size (Nat.lt_succ_self _) i rfl)
    | qvar name w => exact qvar name w
    | all name w e => exact all name w e (ih e.size (Nat.lt_succ_self _) e rfl)
    | notOptimized e => exact hop (.notOptimized e) rfl
    | extract e offset w => exact hop (.extract e offset w) rfl
    | zext e w => exact hop (.zext e w) rfl
    | sext e w => exact hop (.sext e w) rfl
    | not e => exact hop (.not e) rfl
    | select c t f => exact hop (.select c t f) rfl
    | concat l r => exact hop (.concat l r) rfl
    | binary op l r => exact hop (.binary op l r) rfl
    | cmp op l r => exact hop (.cmp op l r) rfl
    | implies l r => exact hop (.implies l r) rfl

lemma replaceVisit_plain (src dst : Expr) (visitPost : Bool) (o : Operation) :
    replaceVisit src dst visitPost o.plain = replaceNode src dst visitPost o.plain
      ((o.map (replaceVisit src dst visitPost)).rebuild o.plain) := by
  cases o <;> rfl

lemma Operation.plain_injective {o o' : Operation} (h : o.plain = o'.plain) : o = o' := by
  cases o <;> cases o' <;> simp_all [plain]

lemma Operation.operands_map (g : Expr → Expr) (o : Operation) :
    (o.map g).operands = o.operands.map g := by
  cases o <;> rfl

lemma Operation.plain_wellTyped {o : Operation} (h : o.plain.WellTyped) :
    (∀ e ∈ o.operands, e.WellTyped) ∧ o.WidthsFit ∧ o.Widens := by
  cases o <;> simp_all [operands, plain, WellTyped, WidthsFit, Widens]
  all_goals exact (Expr.width_pos _ h.1).trans_le h.2

/-! ## Clean expressions -/

mutual

/-- Built by `create`, without variables but `q`. -/
def Expr.Clean : Expr → Option Nat → Prop
  | .constant _ _, _ => True
  | .notOptimized e, q => e.Clean q
  | .read u i, q => u.Clean ∧ i.Clean q
  | .select c t f, q => c.Clean q ∧ t.Clean q ∧ f.Clean q
  | .concat l r, q => l.Clean q ∧ r.Clean q
  | .extract e _ _, q => e.Clean q
  | .zext e _, q => e.Clean q
  | .sext e _, q => e.Clean q
  | .not e, q => e.Clean q
  | .binary op l r, q => ¬ Unfolded op l ∧ l.Clean q ∧ r.Clean q
  | .cmp _ l r, q => l.Clean q ∧ r.Clean q
  | .implies l r, q => l.Clean q ∧ r.Clean q
  | .qvar name w, q => q = some name ∧ w = 32
  | .all _ _ _, _ => False

def UpdateList.Clean : UpdateList → Prop
  | .root array => array.Clean
  | .byteUpdate index value guard next =>
    index.Clean none ∧ value.Clean none ∧ guard.Clean none ∧ next.Clean
  | .multiUpdate src guard next => src.Clean ∧ guard.Clean none ∧ next.Clean

def KleeArray.Clean : KleeArray → Prop
  | .symbolic _ => True
  | .constantValues _ => True
  | .function q valueExpr => valueExpr.Clean (some q)
  | .guarded q valueExpr guard nextSrc =>
    valueExpr.Clean (some q) ∧ guard.Clean (some q) ∧ nextSrc.Clean

end

section Clean

variable {q : Option Nat} {e : Expr}

lemma clean_hereditary (q : Option Nat) : Hereditary (Expr.Clean · q) where
  constant _ _ := trivial
  notOptimized := Iff.rfl
  select := Iff.rfl
  concat := Iff.rfl
  extract := Iff.rfl
  zext := Iff.rfl
  sext := Iff.rfl
  not := Iff.rfl
  cmp := Iff.rfl
  implies := Iff.rfl
  operands := And.right
  binary hop hl hr := ⟨hop, hl, hr⟩

lemma Expr.Clean.weaken (e : Expr) (h : e.Clean none) (q : Option Nat) : e.Clean q := by
  induction e using Expr.operationRec with
  | constant => trivial
  | read u i ih => exact ⟨h.1, ih h.2⟩
  | operation o ih =>
    have hkids := (clean_hereditary none).plain_operands h
    refine (clean_hereditary q).plain_of ?_ fun e he => ih e he (hkids e he)
    rintro op l r rfl
    exact h.1
  | qvar name w => cases h.1
  | all => exact h

lemma Expr.Clean.zeroSumFree (e : Expr) (h : e.Clean q) : ZeroSumFree e := by
  induction e using Expr.operationRec with
  | constant w v => exact zeroSumFree_constant w v
  | read u i ih => exact ⟨nofun, ih h.2⟩
  | operation o ih =>
    have hkids := (clean_hereditary q).plain_operands h
    refine zeroSumFree_hereditary.plain_of ?_ fun e he => ih e he (hkids e he)
    rintro op l r rfl
    exact h.1
  | qvar name w => exact nofun
  | all => exact h.elim

lemma Expr.Clean.addsZero (hl : l.Clean q) (r : Expr) : addsZero l r = false := by
  rw [Bool.eq_false_iff]
  intro hsum
  obtain ⟨n, rfl⟩ := addsZero_inv hsum
  exact hl.1 (.inl ⟨rfl, n, rfl⟩)

lemma Operation.not_comparesZeroSum {o : Operation} (h : ∀ e ∈ o.operands, e.Clean q) :
    o.comparesZeroSum = false := by
  unfold comparesZeroSum
  split
  · next l r => simp [(h l (.head _)).addsZero r, (h r (by simp [operands])).addsZero l]
  · next l r => simp [(h l (.head _)).addsZero r, (h r (by simp [operands])).addsZero l]
  · rfl

lemma Env.bind_comm (ρ : Env) (h : n ≠ m) (x y : Nat) :
    (ρ.bind n x).bind m y = (ρ.bind m y).bind n x := by
  simp only [Env.bind, Function.update_comm h]

lemma Env.bind_bind (ρ : Env) (n x y : Nat) : (ρ.bind n x).bind n y = ρ.bind n y := by
  simp only [Env.bind, Function.update_idem]

mutual

theorem Expr.eval_bind (n x : Nat) : (e : Expr) → {q : Option Nat} → e.Clean q → q ≠ some n →
    ∀ ρ w, e.eval (ρ.bind n x) w = e.eval ρ w
  | .constant _ _, _, _, _ => fun _ _ => rfl
  | .notOptimized e, _, h, hq | .extract e _ _, _, h, hq | .zext e _, _, h, hq | .sext e _, _, h, hq
  | .not e, _, h, hq => fun ρ w => by rw [eval, eval, e.eval_bind n x h hq]
  | .read u i, _, h, hq => fun ρ w => by
    rw [eval, eval, i.eval_bind n x h.2 hq, u.byteAt_bind n x h.1]
  | .select c t f, _, h, hq => fun ρ w => by
    rw [eval, eval, c.eval_bind n x h.1 hq, t.eval_bind n x h.2.1 hq, f.eval_bind n x h.2.2 hq]
  | .concat l r, _, h, hq | .cmp _ l r, _, h, hq | .implies l r, _, h, hq => fun ρ w => by
    rw [eval, eval, l.eval_bind n x h.1 hq, r.eval_bind n x h.2 hq]
  | .binary _ l r, _, h, hq => fun ρ w => by
    rw [eval, eval, l.eval_bind n x h.2.1 hq, r.eval_bind n x h.2.2 hq]
  | .qvar name _, _, h, hq => fun ρ w => by
    have hname : name ≠ n := fun heq => hq (heq ▸ h.1)
    simp only [eval, Env.bind, Function.update_of_ne hname]
  | .all _ _ _, _, h, _ => h.elim

theorem UpdateList.byteAt_bind (n x : Nat) : (u : UpdateList) → u.Clean →
    ∀ ρ i, u.byteAt (ρ.bind n x) i = u.byteAt ρ i
  | .root a, h => fun ρ i => a.byteAt_bind n x h ρ i
  | .byteUpdate index value guard next, h => fun ρ i => by
    rw [UpdateList.byteAt, UpdateList.byteAt, index.eval_bind n x h.1 (by simp),
      value.eval_bind n x h.2.1 (by simp),
      guard.eval_bind n x h.2.2.1 (by simp), next.byteAt_bind n x h.2.2.2]
  | .multiUpdate src guard next, h => fun ρ i => by
    rw [UpdateList.byteAt, UpdateList.byteAt, src.byteAt_bind n x h.1, guard.eval_bind n x h.2.1 (by simp),
      next.byteAt_bind n x h.2.2]

theorem KleeArray.byteAt_bind (n x : Nat) : (a : KleeArray) → a.Clean →
    ∀ ρ i, a.byteAt (ρ.bind n x) i = a.byteAt ρ i
  | .symbolic _, _ => fun _ _ => rfl
  | .constantValues _, _ => fun _ _ => rfl
  | .function q valueExpr, h => fun ρ i => by
    rw [KleeArray.byteAt, KleeArray.byteAt]
    by_cases hq : n = q
    · rw [hq, Env.bind_bind]
    · rw [Env.bind_comm ρ hq, valueExpr.eval_bind n x h (by simpa using Ne.symm hq)]
  | .guarded q valueExpr guard nextSrc, h => fun ρ i => by
    rw [KleeArray.byteAt, KleeArray.byteAt, nextSrc.byteAt_bind n x h.2.2]
    by_cases hq : n = q
    · rw [hq, Env.bind_bind]
    · rw [Env.bind_comm ρ hq, valueExpr.eval_bind n x h.1 (by simpa using Ne.symm hq),
        guard.eval_bind n x h.2.1 (by simpa using Ne.symm hq)]

end

mutual

theorem Expr.weight_update (n x : Nat) : (e : Expr) → {q : Option Nat} → e.Clean q → q ≠ some n →
    ∀ ξ, e.weight (Function.update ξ n x) = e.weight ξ
  | .constant _ _, _, _, _ => fun _ => rfl
  | .notOptimized e, _, h, hq | .extract e _ _, _, h, hq | .zext e _, _, h, hq | .sext e _, _, h, hq
  | .not e, _, h, hq => fun ξ => by rw [weight, weight, e.weight_update n x h hq]
  | .read u i, _, h, hq => fun ξ => by
    rw [weight, weight, i.weight_update n x h.2 hq, u.weight_update n x h.1]
  | .select c t f, _, h, hq => fun ξ => by
    rw [weight, weight, c.weight_update n x h.1 hq, t.weight_update n x h.2.1 hq,
      f.weight_update n x h.2.2 hq]
  | .concat l r, _, h, hq | .cmp _ l r, _, h, hq | .implies l r, _, h, hq => fun ξ => by
    rw [weight, weight, l.weight_update n x h.1 hq, r.weight_update n x h.2 hq]
  | .binary _ l r, _, h, hq => fun ξ => by
    rw [weight, weight, l.weight_update n x h.2.1 hq, r.weight_update n x h.2.2 hq]
  | .qvar name _, _, h, hq => fun ξ => by
    have hname : name ≠ n := fun heq => hq (heq ▸ h.1)
    rw [weight, weight, Function.update_of_ne hname]
  | .all _ _ _, _, h, _ => h.elim

theorem UpdateList.weight_update (n x : Nat) : (u : UpdateList) → u.Clean →
    ∀ y ξ, u.weight y (Function.update ξ n x) = u.weight y ξ
  | .root a, h => fun y ξ => a.weight_update n x h y ξ
  | .byteUpdate index value guard next, h => fun y ξ => by
    rw [UpdateList.weight, UpdateList.weight, index.weight_update n x h.1 (by simp),
      value.weight_update n x h.2.1 (by simp), guard.weight_update n x h.2.2.1 (by simp),
      next.weight_update n x h.2.2.2]
  | .multiUpdate src guard next, h => fun y ξ => by
    rw [UpdateList.weight, UpdateList.weight, src.weight_update n x h.1,
      guard.weight_update n x h.2.1 (by simp), next.weight_update n x h.2.2]

theorem KleeArray.weight_update (n x : Nat) : (a : KleeArray) → a.Clean →
    ∀ y ξ, a.weight y (Function.update ξ n x) = a.weight y ξ
  | .symbolic _, _ => fun _ _ => rfl
  | .constantValues _, _ => fun _ _ => rfl
  | .function q valueExpr, h => fun y ξ => by
    rw [KleeArray.weight, KleeArray.weight]
    by_cases hq : n = q
    · rw [hq, Function.update_idem]
    · rw [Function.update_comm hq, valueExpr.weight_update n x h (by simpa using Ne.symm hq)]
  | .guarded q valueExpr guard nextSrc, h => fun y ξ => by
    rw [KleeArray.weight, KleeArray.weight]
    by_cases hq : n = q
    · rw [hq, Function.update_idem]
    rw [Function.update_comm hq, valueExpr.weight_update n x h.1 (by simpa using Ne.symm hq),
      guard.weight_update n x h.2.1 (by simpa using Ne.symm hq),
      nextSrc.weight_update n x h.2.2]

end

end Clean

/-! ## Reads -/

mutual

/-- Made by the `create` functions from constants, reads and the variable `q`. -/
inductive Expr.Built : Option Nat → Expr → Prop
  | constant (q w) (v : BitVec w) : Expr.Built q (constant w v)
  | qvar (name) : Expr.Built (some name) (qvar name 32)
  | read {q u i} : UpdateList.Built u → Expr.Built q i → Expr.Built q (readCreate u i)
  | operation {q} (o : Operation) : (∀ e ∈ o.operands, Expr.Built q e) → Expr.Built q o.create

inductive UpdateList.Built : UpdateList → Prop
  | root {a} : KleeArray.Built a → UpdateList.Built (.root a)
  | byteUpdate {index value guard next} : Expr.Built none index → Expr.Built none value →
    Expr.Built none guard → UpdateList.Built next →
    UpdateList.Built (.byteUpdate index value guard next)
  | multiUpdate {src guard next} : KleeArray.Built src → Expr.Built none guard →
    UpdateList.Built next → UpdateList.Built (.multiUpdate src guard next)

inductive KleeArray.Built : KleeArray → Prop
  | symbolic (n) : KleeArray.Built (.symbolic n)
  | constantValues (values) : KleeArray.Built (.constantValues values)
  | function {q e} : Expr.Built (some q) e → KleeArray.Built (.function q e)
  | guarded {q e guard next} : Expr.Built (some q) e → Expr.Built (some q) guard →
    UpdateList.Built next → KleeArray.Built (.guarded q e guard next)

end

section Reads

variable {S : Env → Prop} {q : Option Nat} {i : Env → BitVec 32} {u : UpdateList}

lemma readFrom_clean (hwhole : whole.Clean) (hi : index.Clean q) :
    (u : UpdateList) → u.Clean → (readFrom whole index u).Clean q
  | .root a, h => ⟨h, hi⟩
  | .byteUpdate j value guard next, h => by
    rw [readFrom]
    split
    · split
      · exact h.2.1.weaken value q
      · exact readFrom_clean hwhole hi next h.2.2.2
    · exact ⟨hwhole, hi⟩
  | .multiUpdate _ _ _, _ => ⟨hwhole, hi⟩

lemma readCreate_clean (hu : u.Clean) (hi : index.Clean q) :
    (readCreate u index).Clean q := readFrom_clean hu hi u hu

lemma readFrom_denotes (hwhole : whole.WellTyped)
    (hi : Denotes S index 32 i) (hic : index.Clean q) :
    (u : UpdateList) → u.WellTyped → u.Clean →
    (∀ ρ, S ρ → u.byteAt ρ (i ρ) = whole.byteAt ρ (i ρ)) →
    Denotes S (readFrom whole index u) 8 fun ρ => whole.byteAt ρ (i ρ)
  | .root a, ht, _, hsame => (Denotes.read ht hi).congr hsame
  | .byteUpdate j value guard next, ht, hc, hsame => by
    obtain ⟨⟨hjt, hjw⟩, ⟨hvt, hvw⟩, ⟨hgt, hgw⟩, hnt⟩ := ht
    obtain ⟨hjc, hvc, hgc, hnc⟩ := hc
    have hj : Denotes S j 32 (j.eval · 32) := ⟨hjt, hjw, fun _ _ => rfl⟩
    have hv : Denotes S value 8 (value.eval · 8) := ⟨hvt, hvw, fun _ _ => rfl⟩
    have hg : Denotes S guard 1 (guard.eval · 1) := ⟨hgt, hgw, fun _ _ => rfl⟩
    have hcond := andCreate_denotes hg
      (eqCreate_denotes hj hi hjc.zeroSumFree hic.zeroSumFree (hjc.addsZero _) (hic.addsZero _))
    have hbits : ∀ (g : BitVec 1) (b : Bool) (v : BitVec 1), g &&& BitVec.ofBool b = v →
        (isTrueBits v = true ↔ g = 1 ∧ b = true) := by decide
    rw [readFrom]
    split
    · next n v hconst =>
      obtain ⟨rfl, hval⟩ := hcond.asConstant_some hconst
      have happlies : ∀ ρ, S ρ → (isTrueBits v = true ↔ guard.eval ρ 1 = 1 ∧ j.eval ρ 32 = i ρ) := by
        intro ρ hρ
        have := hbits _ _ v ((hval ρ hρ).trans (BitVec.setWidth_eq v))
        simpa using this
      split
      · next htrue =>
        refine hv.congr fun ρ hρ => ?_
        rw [← hsame ρ hρ, UpdateList.byteAt, if_pos ((happlies ρ hρ).1 htrue)]
      · next hfalse =>
        refine readFrom_denotes hwhole hi hic next hnt hnc fun ρ hρ => ?_
        rw [← hsame ρ hρ, UpdateList.byteAt, if_neg (mt (happlies ρ hρ).2 hfalse)]
    · exact .read hwhole hi
  | .multiUpdate _ _ _, _, _, _ => .read hwhole hi

lemma readCreate_denotes (hu : u.WellTyped) (huc : u.Clean)
    (hi : Denotes S index 32 i) (hic : index.Clean q) :
    Denotes S (readCreate u index) 8 fun ρ => u.byteAt ρ (i ρ) :=
  readFrom_denotes hu hi hic u hu huc fun _ _ => rfl

lemma readFrom_weight (whole : UpdateList) (index : Expr) :
    (u : UpdateList) → u.weight (index.weight ξ) ξ ≤ whole.weight (index.weight ξ) ξ →
    (readFrom whole index u).weight ξ ≤ whole.weight (index.weight ξ) ξ
  | .root a, h => h
  | .byteUpdate j value guard next, h => by
    rw [UpdateList.weight] at h
    rw [readFrom]
    split
    · split
      · omega
      · exact readFrom_weight whole index next (by omega)
    · exact le_rfl
  | .multiUpdate _ _ _, _ => le_rfl

lemma readCreate_weight (ξ : Nat → Nat) (u : UpdateList) (index : Expr) :
    (readCreate u index).weight ξ ≤ u.weight (index.weight ξ) ξ :=
  readFrom_weight u index u le_rfl

end Reads

mutual

lemma Expr.Built.clean : Expr.Built q e → e.Clean q
  | .constant .. => trivial
  | .qvar _ => ⟨rfl, rfl⟩
  | .read hu hi => readCreate_clean hu.clean hi.clean
  | .operation _ ho => Operation.create_keeps (clean_hereditary _) fun e he => (ho e he).clean

lemma UpdateList.Built.clean : UpdateList.Built u → u.Clean
  | .root ha => ha.clean
  | .byteUpdate hi hv hg hn => ⟨hi.clean, hv.clean, hg.clean, hn.clean⟩
  | .multiUpdate hs hg hn => ⟨hs.clean, hg.clean, hn.clean⟩

lemma KleeArray.Built.clean : KleeArray.Built a → a.Clean
  | .symbolic _ => trivial
  | .constantValues _ => trivial
  | .function he => he.clean
  | .guarded he hg hn => ⟨he.clean, hg.clean, hn.clean⟩

end

/-! ## Replacing -/

section Replace

variable {S : Env → Prop} {q q' : Option Nat} {src dst : Expr} {visitPost : Bool} {σ : Env → Env}

/-- `dst` stands for `src` where the environment was changed by `σ`. -/
structure Replaces (S : Env → Prop) (src dst : Expr) (visitPost : Bool) (q q' : Option Nat)
    (σ : Env → Env) : Prop where
  clean : dst.Clean q'
  denotes : Denotes S dst src.width fun ρ => src.eval (σ ρ) src.width
  /-- the variable in scope is the one that is replaced -/
  var : ∀ n, q = some n → src = qvar n 32
  updates : ∀ u : UpdateList, u.Clean → ∀ ρ i, u.byteAt (σ ρ) i = u.byteAt ρ i
  post : visitPost = true → ∀ ρ, S ρ → σ ρ = ρ

structure Replaced (S : Env → Prop) (q' : Option Nat) (σ : Env → Env) (e e' : Expr) : Prop where
  clean : e'.Clean q'
  denotes : Denotes S e' e.width fun ρ => e.eval (σ ρ) e.width

lemma Replaced.trans {e e₁ e₂ : Expr} (h₁ : Replaced S none id e e₁) (h₂ : Replaced S none id e₁ e₂) :
    Replaced S none id e e₂ := by
  have hw := h₁.denotes.width
  refine ⟨h₂.clean, h₂.denotes.typed, h₂.denotes.width.trans hw, fun ρ hρ => ?_⟩
  have h := h₂.denotes.value ρ hρ
  rw [hw] at h
  rw [h]
  exact h₁.denotes.value ρ hρ

lemma Replaced.node (h : Replaces S src dst visitPost q q' σ) {e rebuilt : Expr}
    (he : Replaced S q' σ e rebuilt) :
    Replaced S q' σ e (replaceNode src dst visitPost e rebuilt) := by
  unfold replaceNode
  split
  · next heq =>
    subst heq
    exact ⟨h.clean, h.denotes⟩
  split
  · next hpost =>
    simp only [Bool.and_eq_true, beq_iff_eq] at hpost
    obtain ⟨⟨hpost, -⟩, rfl⟩ := hpost
    have hw := he.denotes.width
    refine ⟨h.clean, h.denotes.typed, h.denotes.width.trans hw, fun ρ hρ => ?_⟩
    rw [← he.denotes.value ρ hρ, ← hw, h.denotes.value ρ hρ, h.post hpost ρ hρ]
  · exact he

variable {o : Operation} {g : Expr → Expr} {ξ' : Nat → Nat}

lemma Replaced.rebuild (typed : o.plain.WellTyped) (hc : o.plain.Clean q)
    (ho : ∀ e ∈ o.operands, Replaced S q' σ e (g e)) :
    Replaced S q' σ o.plain ((o.map g).rebuild o.plain) := by
  have hrew : o.Rewritten S g σ := by
    rintro e he n rfl
    exact (ho e he).denotes
  have hclean : ∀ e ∈ (o.map g).operands, e.Clean q' := by
    rw [o.operands_map]
    intro e he
    obtain ⟨k, hk, rfl⟩ := List.mem_map.1 he
    exact (ho k hk).clean
  unfold Operation.rebuild
  split
  · next hsame =>
    refine ⟨?_, hsame ▸ Operation.map_plain_denotes hrew typed⟩
    rw [Operation.plain_injective hsame] at hclean
    refine (clean_hereditary q').plain_of ?_ hclean
    rintro op l r rfl
    exact hc.1
  refine ⟨Operation.create_keeps (clean_hereditary q') hclean, ?_⟩
  obtain ⟨-, widths, -⟩ := Operation.plain_wellTyped typed
  refine Operation.map_create_denotes hrew (fun e he => (ho e he).clean.zeroSumFree) widths
    (Operation.not_comparesZeroSum hclean) ?_
  intro hone ρ _
  cases o with
  | binary op l r => exact fun hdiv => absurd (.inr ⟨hdiv, hone⟩) hc.1
  | _ => trivial

lemma replaceVisit_replaced (h : Replaces S src dst visitPost q q' σ) (e : Expr)
    (typed : e.WellTyped) (hc : e.Clean q) :
    Replaced S q' σ e (replaceVisit src dst visitPost e) := by
  induction e using Expr.operationRec with
  | constant w v => exact ⟨trivial, typed, rfl, fun _ _ => rfl⟩
  | read u i ih =>
    have hi := ih typed.2.1 hc.2
    have hi32 := hi.denotes
    rw [typed.2.2] at hi32
    have hbyte : ∀ ρ, u.byteAt ρ (i.eval (σ ρ) 32) = (read u i).eval (σ ρ) 8 := fun ρ => by
      rw [eval, BitVec.setWidth_eq, h.updates u hc.1]
    refine .node h ?_
    split
    · next hsame =>
      rw [hsame] at hi hi32
      exact ⟨⟨hc.1, hi.clean⟩, (Denotes.read typed.1 hi32).congr fun ρ _ => hbyte ρ⟩
    · exact ⟨readCreate_clean hc.1 hi.clean,
        (readCreate_denotes typed.1 hc.1 hi32 hi.clean).congr fun ρ _ => hbyte ρ⟩
  | operation o ih =>
    rw [replaceVisit_plain]
    obtain ⟨htyped, -, -⟩ := Operation.plain_wellTyped typed
    have hkids := (clean_hereditary q).plain_operands hc
    exact .node h (.rebuild typed hc fun e he => ih e he (htyped e he) (hkids e he))
  | qvar name w =>
    obtain ⟨hname, rfl⟩ := hc
    obtain rfl := h.var name hname
    rw [replaceVisit, if_pos rfl]
    exact ⟨h.clean, h.denotes⟩
  | all => exact hc.elim

/-! ## Replacing adds no weight -/

lemma Operation.plain_weight_le (h : ∀ e ∈ o.operands, (g e).weight ξ ≤ e.weight ξ') :
    (o.map g).plain.weight ξ ≤ o.plain.weight ξ' := by
  cases o with
  | select c t f =>
    have hc := h c (.head _)
    have ht := h t (by simp [operands])
    have hf := h f (by simp [operands])
    simp only [map, plain, weight]
    omega
  | notOptimized e | extract e | zext e | sext e | not e =>
    have he := h e (.head _)
    simp only [map, plain, weight]
    omega
  | concat l r | binary _ l r | cmp _ l r | implies l r =>
    have hl := h l (.head _)
    have hr := h r (by simp [operands])
    simp only [map, plain, weight]
    omega

lemma Operation.rebuild_weight (hwide : o.Widens) (e : Expr) :
    (o.rebuild e).weight ξ ≤ o.plain.weight ξ := by
  unfold rebuild
  split
  · next heq => rw [heq]
  · exact (create_made hereditary_true hwide fun _ _ => trivial).weight_le

lemma Operation.map_widens (h : o.Widens) (hg : ∀ e ∈ o.operands, (g e).width = e.width) :
    (o.map g).Widens := by
  cases o with
  | zext e w | sext e w => exact (hg e (.head _)).trans_le h
  | _ => trivial

lemma replaceVisit_weight (h : Replaces S src dst visitPost q q' σ) (hξ : ξ ≤ ξ')
    (hdst : visitPost = true → dst.weight ξ ≤ src.weight ξ) (hdst' : dst.weight ξ ≤ src.weight ξ')
    (e : Expr) (typed : e.WellTyped) (hc : e.Clean q) :
    (replaceVisit src dst visitPost e).weight ξ ≤ e.weight ξ' := by
  have hnode : ∀ {e rebuilt}, Expr.weight rebuilt ξ ≤ e.weight ξ' →
      (replaceNode src dst visitPost e rebuilt).weight ξ ≤ e.weight ξ' := by
    intro e rebuilt hle
    unfold replaceNode
    split
    · next heq => rw [heq]; exact hdst'
    split
    · next hpost =>
      simp only [Bool.and_eq_true, beq_iff_eq] at hpost
      exact (hdst hpost.1.1).trans (hpost.2 ▸ hle)
    · exact hle
  induction e using Expr.operationRec with
  | constant => exact le_rfl
  | read u i ih =>
    have hi := ih typed.2.1 hc.2
    refine hnode ?_
    split
    · exact Expr.weight_mono hξ _
    · exact (readCreate_weight ξ u _).trans (u.weight_mono hξ hi)
  | operation o ih =>
    rw [replaceVisit_plain]
    obtain ⟨htyped, -, hwide⟩ := Operation.plain_wellTyped typed
    have hkids := (clean_hereditary q).plain_operands hc
    refine hnode ((Operation.rebuild_weight (Operation.map_widens hwide fun e he => ?_) _).trans
      (Operation.plain_weight_le fun e he => ih e he (htyped e he) (hkids e he)))
    exact (replaceVisit_replaced h e (htyped e he) (hkids e he)).denotes.width
  | qvar name w =>
    obtain ⟨hname, rfl⟩ := hc
    obtain rfl := h.var name hname
    rw [replaceVisit, if_pos rfl]
    exact hdst'
  | all => exact hc.elim

lemma Replaces.constant {w : Nat} {v : BitVec w} (hsrc : src.WellTyped) (hw : src.width = w)
    (hval : ∀ ρ, S ρ → src.eval ρ w = v) :
    Replaces S src (constant w v) visitPost none none id where
  clean := trivial
  denotes := by
    subst hw
    exact (Denotes.constant (src.width_pos hsrc) v).congr fun ρ hρ => (hval ρ hρ).symm
  var := by simp
  updates _ _ _ _ := rfl
  post _ _ _ := rfl

lemma Replaces.index {index : Expr} (hi : Denotes S index 32 i)
    (hic : index.Clean q') : Replaces S (qvar n 32) index false (some n) q'
      fun ρ => ρ.bind n (i ρ).toNat where
  clean := hic
  denotes := hi.congr fun ρ _ => by simp [eval, Env.bind, width]
  var := by simp
  updates u hu ρ j := u.byteAt_bind _ _ hu ρ j
  post h := by cases h

end Replace

/-- **Result.**  The value of an array at an index is the byte that a read finds there. -/
theorem KleeArray.getValueAtIndex_denotes {S : Env → Prop} {index : Expr}
    {a : KleeArray} (ha : a.WellTyped) (hac : a.Clean) (hi : Denotes S index 32 i)
    (hic : index.Clean none) :
    (a.getValueAtIndex index).Clean none ∧
      Denotes S (a.getValueAtIndex index) 8 fun ρ => a.byteAt ρ (i ρ) := by
  cases a with
  | symbolic name => exact ⟨⟨trivial, hic⟩, .read ha hi⟩
  | constantValues values =>
    have hread : (read (.root (.constantValues values)) index).Clean none ∧
        Denotes S (read (.root (.constantValues values)) index) 8 fun ρ =>
          (KleeArray.constantValues values).byteAt ρ (i ρ) :=
      ⟨⟨trivial, hic⟩, .read ha hi⟩
    simp only [getValueAtIndex]
    split
    · next n v hconst =>
      obtain ⟨rfl, hval⟩ := hi.asConstant_some hconst
      split
      · next byte hbyte =>
        refine ⟨trivial, (Denotes.constant (by decide) byte).congr fun ρ hρ => ?_⟩
        rw [hval ρ hρ, BitVec.setWidth_eq, byteAt, Env.constantByte, hbyte]
        rfl
      · exact hread
    · exact hread
  | function q valueExpr =>
    have h := replaceVisit_replaced (.index hi hic) valueExpr ha.1 hac
    have hvalue := h.denotes
    rw [ha.2] at hvalue
    exact ⟨h.clean, hvalue⟩
  | guarded q valueExpr guard nextSrc =>
    obtain ⟨⟨hvt, hvw⟩, ⟨hgt, hgw⟩, hnt⟩ := ha
    obtain ⟨hvc, hgc, hnc⟩ := hac
    have hnext := readCreate_denotes hnt hnc hi hic
    have hnextc : (readCreate nextSrc index).Clean none := readCreate_clean hnc hic
    have hvalue : Denotes (fun _ => True) (selectCreate guard valueExpr (readCreate nextSrc index)) 8
        fun ρ => if guard.eval ρ 1 = 1 then valueExpr.eval ρ 8
          else (readCreate nextSrc index).eval ρ 8 :=
      selectCreate_denotes ⟨hgt, hgw, fun _ _ => rfl⟩ ⟨hvt, hvw, fun _ _ => rfl⟩
        ⟨hnext.typed, hnext.width, fun _ _ => rfl⟩ fun _ => hgc.zeroSumFree
    have hclean : (selectCreate guard valueExpr (readCreate nextSrc index)).Clean (some q) :=
      Operation.create_keeps (o := .select guard valueExpr (readCreate nextSrc index))
        (clean_hereditary (some q))
        (by simpa [Operation.operands] using ⟨hgc, hvc, hnextc.weaken _ _⟩)
    have h := replaceVisit_replaced (.index hi hic) _ hvalue.typed hclean
    refine ⟨h.clean, (hvalue.width ▸ h.denotes).congr fun ρ hρ => ?_⟩
    rw [hvalue.value _ trivial, Expr.eval_bind _ _ _ hnextc (by simp), hnext.value ρ hρ, byteAt]

def KleeArray.isConstrained : KleeArray → Bool
  | .function _ _ | .guarded _ _ _ _ => true
  | .symbolic _ | .constantValues _ => false

lemma KleeArray.getValueAtIndex_mass {a : KleeArray} {index : Expr} (hcon : a.isConstrained = true)
    (ha : a.WellTyped) (hac : a.Clean) (hit : index.WellTyped) (hiw : index.width = 32)
    (hic : index.Clean none) :
    (a.getValueAtIndex index).mass < a.weight index.mass fun _ => 0 := by
  have hi : Denotes (fun _ => True) index 32 (index.eval · 32) := ⟨hit, hiw, fun _ _ => rfl⟩
  -- the variable of the array weighs more than the index that is put in its place
  have hvar : ∀ q, index.mass ≤ (qvar q 32).weight (Function.update (fun _ => 0) q index.mass) :=
    fun q => by simp [Expr.weight]
  have hzero : ∀ q : Nat, (fun _ => 0) ≤ Function.update (fun _ => 0) q index.mass :=
    fun _ _ => Nat.zero_le _
  cases a with
  | symbolic | constantValues => cases hcon
  | function q valueExpr =>
    have h := replaceVisit_weight (.index hi hic) (hzero q) (by simp) (hvar q) valueExpr ha.1 hac
    refine h.trans_lt ?_
    simp only [KleeArray.weight]
    omega
  | guarded q valueExpr guard nextSrc =>
    obtain ⟨⟨hvt, hvw⟩, ⟨hgt, hgw⟩, hnt⟩ := ha
    obtain ⟨hvc, hgc, hnc⟩ := hac
    have hnext := readCreate_denotes hnt hnc hi hic
    have hnextc : (readCreate nextSrc index).Clean none := readCreate_clean hnc hic
    have hsel := selectCreate_denotes (S := fun _ => True) ⟨hgt, hgw, fun _ _ => rfl⟩
      ⟨hvt, hvw, fun _ _ => rfl⟩ ⟨hnext.typed, hnext.width, fun _ _ => rfl⟩ fun _ => hgc.zeroSumFree
    have hmade := Operation.create_made (o := .select guard valueExpr (readCreate nextSrc index))
      (ξ := Function.update (fun _ => 0) q index.mass) (clean_hereditary (some q)) trivial
      (by simpa [Operation.operands] using ⟨hgc, hvc, hnextc.weaken _ _⟩)
    have h := replaceVisit_weight (.index hi hic) (hzero q) (by simp) (hvar q) _ hsel.typed
      hmade.keeps
    have hle := hmade.weight_le
    have hn := (readCreate_weight (fun _ => 0) nextSrc index).trans
      (nextSrc.weight_mono (hzero q) (le_refl index.mass))
    simp only [Operation.create, Operation.plain, Expr.weight,
      Expr.weight_update q _ _ hnextc (by simp)] at hle
    refine h.trans_lt ?_
    simp only [KleeArray.weight]
    omega

end InputCovSched.Klee
